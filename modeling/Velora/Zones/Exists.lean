import Velora.Zones.Find
import Velora.Zones.Hosts
import Velora.Zones.Response

/-!
# The names that exist

`Lookup` answers NXDOMAIN for a name that the zone that encloses it most closely has nothing at or below. A name does exist when
any zone has: `lookup_exact_iff` says for which zones and names the two are the same. They are not for a name between a zone and
a zone inside it.
-/

namespace Velora.Zones

open Velora.Lib Velora.Lib.Text Velora.Wire Velora.Dns

/-! ### What exists -/

/-- A name of a zone is at or below the name with these labels. -/
def AtOrBelow (n : List (List UInt8)) (name : Str) : Prop := ∃ us, name = dotted (us ++ n)

/-- The zone has its apex or the owner of a record at or below a name. -/
def Zone.Has (z : Zone) (n : List (List UInt8)) : Prop := AtOrBelow n z.name ∨ ∃ r ∈ z.records, AtOrBelow n r.name

/-- Some zone has. -/
def Existent (zs : List Zone) (n : List (List UInt8)) : Prop := ∃ z ∈ zonesOf zs, z.Has n

/-- Some zone has its apex at or below a name, or an owner that no other zone encloses more closely. -/
def Visible (zs : List Zone) (n : List (List UInt8)) : Prop :=
  ∃ z ∈ zonesOf zs, AtOrBelow n z.name ∨
    ∃ r ∈ z.records, ∃ us, r.name = dotted (us ++ n) ∧ Selected (zoneAt zs) (us ++ n) (some z)

/-! ### What is answered -/

def Zone.soa (z : Zone) : RR := View.soa { zone := z, «exists» := ∅ }

/-- The wire forms of the records. -/
def Zone.wire (z : Zone) : List RR := z.records.filterMap (fun r => (recordRR r).toOption)

/-- The records of a name and a type, with the SOA record of the apex, and an NS record where it has none. -/
def Zone.answer (z : Zone) (name : Str) (kind : UInt16) : List RR :=
  let records := z.wire.filter (fun rr => rr.name = name ∧ rr.rrtype = kind)
  if name = z.name ∧ kind = typeSOA then [z.soa]
  else if name = z.name ∧ kind = typeNS ∧ records = [] then [⟨⟨name, classINET, 300⟩, .ns z.primaryNS⟩]
  else records

/-- **NXDOMAIN is answered exactly when the name does not exist**, and otherwise the records of the type, or NODATA. -/
structure Exact (z : Zone) (n : List (List UInt8)) (kind : UInt16) (existent : Prop) (m : Msg) : Prop where
  denied : m.rcode = rcodeNameError ↔ ¬ existent
  otherwise : m.rcode ≠ rcodeNameError → m.rcode = rcodeSuccess ∧ m.answer = z.answer (dotted n) kind ∧
    m.ns = if m.answer = [] then [z.soa] else []

/-! ### The index -/

section

variable {z : Zone} {zl n : List (List UInt8)}

/-- The labels of a zone in normal form and of its records. -/
structure Labelled (z : Zone) (zl : List (List UInt8)) : Prop where
  host : Host zl
  name : z.name = dotted zl
  records : ∀ r ∈ z.records, ∃ rl, Host rl ∧ r.name = dotted rl ∧ zl <:+ rl

theorem labelled_of_normal (h : NormalZone z) : ∃ zl, Labelled z zl := by
  obtain ⟨name, hname, _, _, _, _, _, records, hrecords, heq⟩ := normalize_eq_ok.1 h
  rw [← heq]
  obtain ⟨zl, hzl, rfl⟩ := domain_host hname
  refine ⟨zl, hzl, rfl, fun r hr => ?_⟩
  obtain ⟨r₀, -, hr₀⟩ := Loops.mem_of_mapM_ok hrecords r hr
  obtain ⟨owner, howner, hsub, -, -, value, -, -, -, -, rfl⟩ := normalizeRecord_eq_ok.1 hr₀
  obtain ⟨rl, hrl, rfl⟩ := domain_host howner
  exact ⟨rl, hrl, rfl, (isSubDomain_dotted hzl hrl).1 hsub⟩

/-- A name with a dot in a label is not one of a zone. -/
theorem Labelled.not_has (h : Labelled z zl) (hn : ∃ l ∈ n, 46 ∈ l) : ¬ z.Has n := by
  obtain ⟨l, hl, hdot⟩ := hn
  have hno : ∀ ls us, Host ls → dotted ls ≠ dotted (us ++ n) := by
    intro ls us hls heq
    rw [dotted_inj heq] at hls
    exact hls.no_dot l (List.mem_append_right us hl) hdot
  rintro (⟨us, hus⟩ | ⟨r, hr, us, hus⟩)
  · exact hno zl us h.host (h.name.symm.trans hus)
  · obtain ⟨rl, hrl, hname, -⟩ := h.records r hr
    exact hno rl us hrl (hname.symm.trans hus)

/-- What a zone has for a name is at the name. -/
theorem has_of_answer {name : Str} {kind : UInt16} (hname : name = dotted n) (h : z.answer name kind ≠ []) : z.Has n := by
  subst hname
  by_cases hapex : dotted n = z.name
  · exact Or.inl ⟨[], hapex.symm⟩
  rw [Zone.answer, if_neg fun h => hapex h.1, if_neg fun h => hapex h.1] at h
  obtain ⟨rr, hrr⟩ := List.exists_mem_of_ne_nil _ h
  obtain ⟨hwire, hkeep⟩ := List.mem_filter.1 hrr
  obtain ⟨r, hr, hform⟩ := List.mem_filterMap.1 hwire
  have hown := (recordRR_name (Loops.eq_ok_of_toOption hform)).1
  have hat : rr.name = dotted n := (of_decide_eq_true hkeep).1
  exact Or.inr ⟨r, hr, [], hown.symm.trans hat⟩

/-- The names of the index, for a name inside the zone or with a dot in a label. -/
theorem Labelled.has_iff (h : Labelled z zl) (hn : zl <:+ n ∨ ∃ l ∈ n, 46 ∈ l) :
    (dotted n = z.name ∨ ∃ r ∈ z.records, dotted n ∈ above z.name r.name) ↔ z.Has n := by
  have habove : ∀ r ∈ z.records, dotted n ∈ above z.name r.name → z.Has n := by
    intro r hr hmem
    obtain ⟨rl, hrl, hname, -⟩ := h.records r hr
    rw [h.name, hname, mem_above h.host hrl] at hmem
    obtain ⟨us, rfl⟩ := hmem.1
    exact Or.inr ⟨r, hr, us, hname⟩
  constructor
  · rintro (heq | ⟨r, hr, hmem⟩)
    · exact Or.inl ⟨[], heq.symm⟩
    · exact habove r hr hmem
  · intro hhas
    rcases hn with hin | hdot
    · rcases hhas with ⟨us, hus⟩ | ⟨r, hr, us, hus⟩
      · have hlabels : zl = us ++ n := dotted_inj (h.name.symm.trans hus)
        have hlen := hin.length_le
        have hnil : us = [] := by
          refine List.length_eq_zero_iff.1 ?_
          rw [hlabels, List.length_append] at hlen
          omega
        rw [hnil] at hus
        exact Or.inl hus.symm
      · obtain ⟨rl, hrl, hname, -⟩ := h.records r hr
        have hlabels : rl = us ++ n := dotted_inj (hname.symm.trans hus)
        refine Or.inr ⟨r, hr, ?_⟩
        rw [h.name, hname, mem_above h.host hrl]
        exact ⟨⟨us, hlabels.symm⟩, hin⟩
    · exact absurd hhas (h.not_has hdot)

end

section

variable {lib : Miekg} {z : Zone} {rrs : List RR} {b : Build}

theorem Built.wire_eq (h : Built lib z z.records rrs b) : z.wire = rrs := Loops.filterMap_of_mapM_ok h.wire

/-- What the index has for a name and a type. -/
theorem Built.lookup_eq (h : Built lib z z.records rrs b) (name : Str) (kind : UInt16) :
    b.view.lookup name kind = z.answer name kind := by
  unfold View.lookup Zone.answer
  rw [h.wire_eq, h.at', h.zone, List.filter_filter]
  have hsoa : b.view.soa = z.soa := by
    unfold Zone.soa View.soa
    rw [h.zone]
  rw [hsoa]
  simp only [Bool.decide_and, Bool.and_comm]

theorem map_name_of_mapM {rs : List Record} (h : rs.mapM recordRR = .ok rrs) : rrs.map RR.name = rs.map Record.name := by
  have hall := Loops.forall₂_of_mapM_ok h
  clear h
  induction hall with
  | nil => rfl
  | cons hr _ ih => rw [List.map_cons, List.map_cons, ih, (recordRR_name hr).1]

theorem Built.exists_iff (h : Built lib z z.records rrs b) (name : Str) :
    (b.view.exists.lookup name).getD false = true ↔ name = z.name ∨ ∃ r ∈ z.records, name ∈ above z.name r.name := by
  have howners : (∃ rr ∈ rrs, name ∈ above z.name rr.name) ↔ ∃ r ∈ z.records, name ∈ above z.name r.name := by
    have hmem : ∀ owner, owner ∈ rrs.map RR.name ↔ owner ∈ z.records.map Record.name := fun owner => by rw [map_name_of_mapM h.wire]
    simp only [List.mem_map] at hmem
    constructor
    · rintro ⟨rr, hrr, hin⟩
      obtain ⟨r, hr, heq⟩ := (hmem rr.name).1 ⟨rr, hrr, rfl⟩
      exact ⟨r, hr, by rwa [heq]⟩
    · rintro ⟨r, hr, hin⟩
      obtain ⟨rr, hrr, heq⟩ := (hmem r.name).2 ⟨r, hr, rfl⟩
      exact ⟨rr, hrr, by rwa [heq]⟩
  rw [← howners, h.exists]
  split
  · rename_i hyes
    exact iff_of_true rfl hyes
  · rename_i hno
    exact iff_of_false (by simp) hno

end

/-! ### The answer -/

section

variable {lib : Miekg} {zs : List Zone} {s : Snapshot} {z : Zone} {n : List (List UInt8)} {v : View} {kind : UInt16}

/-- What `find` gives has what the closest zone has. -/
theorem find_of_selected (h : compile lib zs = .ok s) (hz : Selected (zoneAt zs) n (some z)) :
    ∃ v, s.find (present n) = some v ∧ ((∀ l ∈ n, 46 ∉ l) → v.zone = z) := by
  obtain ⟨t, ht, hat, -⟩ := id hz
  have hcut := find_zone h n
  have hsome : ((n :: textTails n).findSome? (zoneAt zs)).isSome := by
    refine List.findSome?_isSome_iff.2 ⟨t, ?_, by rw [hat]; rfl⟩
    obtain ⟨us, rfl⟩ := ht
    by_cases hus : us = []
    · subst hus
      exact List.mem_cons_self
    · exact List.mem_cons_of_mem _ (mem_textTails.2 (Or.inl ⟨us, hus, rfl⟩))
  rw [← hcut, Option.isSome_map] at hsome
  obtain ⟨v, hv⟩ := Option.isSome_iff_exists.1 hsome
  refine ⟨v, hv, fun hdots => ?_⟩
  have hsel : Selected (zoneAt zs) n ((n :: textTails n).findSome? (zoneAt zs)) :=
    (findSome?_cuts_iff zoneAt_inj).2 (straight_of_no_dot hdots)
  rw [selected_iff, ← hcut, hv, selected_iff.1 hz] at hsel
  exact (Option.some.inj hsel).symm

/-- The zone of `find` encloses the name, or the name has a dot in a label. -/
theorem labelled_of_find (h : compile lib zs = .ok s) (hfind : s.find (present n) = some v) :
    ∃ zl, Labelled v.zone zl ∧ (zl <:+ n ∨ ∃ l ∈ n, 46 ∈ l) := by
  obtain ⟨hnormal, ⟨t, ht, hname⟩, -⟩ := view_of_find h hfind
  obtain ⟨zl, hzl⟩ := labelled_of_normal hnormal
  refine ⟨zl, hzl, ?_⟩
  have hzt : zl = t := dotted_inj (hzl.name.symm.trans hname)
  subst hzt
  rcases List.mem_cons.1 ht with rfl | ht
  · exact Or.inl List.suffix_rfl
  rcases mem_textTails.1 ht with ⟨us, -, hn⟩ | ⟨us, u, w, ws, hn, -⟩
  · exact Or.inl ⟨us, hn.symm⟩
  · exact Or.inr ⟨u ++ 46 :: w, by rw [hn]; simp, by simp⟩

/-- The turn of the loop that ends a lookup without an alias. -/
theorem chase_first (hfind : s.find (dotted n) = some v) (halias : v.lookup (dotted n) typeCNAME = []) (turns : ℕ) (m : Msg) :
    s.chase kind (turns + 1) (dotted n) m =
      if v.lookup (dotted n) kind ≠ [] then { m with answer := m.answer ++ v.lookup (dotted n) kind }
      else
        { m with
          rcode := if (v.exists.lookup (dotted n)).getD false then m.rcode else rcodeNameError
          ns := [v.soa] } := by
  rw [Snapshot.chase, hfind]
  dsimp only
  split
  · rfl
  · rw [halias]

/-- What the closest zone has is visible, there or as the apex of a zone inside it. -/
theorem visible_of_has (hz : Selected (zoneAt zs) n (some z)) (hhas : z.Has n) : Visible zs n := by
  obtain ⟨t, ht, hat, hlongest⟩ := hz
  have hmem := (mem_of_zoneAt hat).1
  rcases hhas with hapex | ⟨r, hr, us, hus⟩
  · exact ⟨z, hmem, Or.inl hapex⟩
  cases hclosest : (us ++ n).tails.findSome? (zoneAt zs) with
  | none =>
    have hnone := List.findSome?_eq_none_iff.1 hclosest t ((List.mem_tails _ _).2 (ht.trans (List.suffix_append us n)))
    rw [hat] at hnone
    cases hnone
  | some z' =>
    have hsel := selected_iff.2 hclosest
    obtain ⟨t', ht', hat', hlongest'⟩ := id hsel
    obtain ⟨hmem', hname'⟩ := mem_of_zoneAt hat'
    rcases le_total t'.length n.length with hle | hle
    · -- no zone lies between the two names
      have htn := List.suffix_of_suffix_length_le ht' (List.suffix_append us n) hle
      have h1 : ¬ t.length < t'.length := fun hlt => by
        rw [hlongest t' htn hlt] at hat'
        cases hat'
      have h2 : ¬ t'.length < t.length := fun hlt => by
        rw [hlongest' t (ht.trans (List.suffix_append us n)) hlt] at hat
        cases hat
      have heq : t' = t := (List.suffix_of_suffix_length_le htn ht (by omega)).eq_of_length (by omega)
      rw [heq, hat, Option.some.injEq] at hat'
      subst hat'
      exact ⟨z, hmem, Or.inr ⟨r, hr, us, hus, hsel⟩⟩
    · obtain ⟨us', rfl⟩ := List.suffix_of_suffix_length_le (List.suffix_append us n) ht' hle
      exact ⟨z', hmem', Or.inl ⟨us', hname'⟩⟩

/-- What `find` gives for a name is the closest zone, or neither has anything there; and it is looked up as it stands. -/
theorem found_of_selected (h : compile lib zs = .ok s) (hz : Selected (zoneAt zs) n (some z)) :
    ∃ v, present n = dotted n ∧ s.find (dotted n) = some v ∧ (v.zone = z ∨ ¬ v.zone.Has n ∧ ¬ z.Has n) ∧
      (∀ kind, v.lookup (dotted n) kind = v.zone.answer (dotted n) kind) ∧
      ((v.exists.lookup (dotted n)).getD false = true ↔ v.zone.Has n) := by
  obtain ⟨v, hfind, hclosest⟩ := find_of_selected h hz
  obtain ⟨-, -, b, rrs, hbuilt, rfl⟩ := view_of_find h hfind
  obtain ⟨zl, hzl, hin⟩ := labelled_of_find h hfind
  obtain ⟨t, ht, hat, -⟩ := hz
  have hmem := (mem_of_zoneAt hat).1
  obtain ⟨zl', hzl'⟩ := labelled_of_normal ((indexed_zonesOf h).1 z hmem)
  have hne : n ≠ [] := by
    rintro rfl
    have hroot := (mem_of_zoneAt hat).2
    rw [List.suffix_nil.1 ht, hzl'.name] at hroot
    exact hzl'.host.ne_nil (dotted_inj hroot)
  have hpresent := present_eq_dotted hne
  refine ⟨b.view, hpresent, hpresent ▸ hfind, ?_, fun kind => hbuilt.lookup_eq (dotted n) kind, ?_⟩
  · -- behind a dot of a label no zone has anything
    by_cases hdots : ∀ l ∈ n, 46 ∉ l
    · exact Or.inl (hclosest hdots)
    · push Not at hdots
      exact Or.inr ⟨hzl.not_has hdots, hzl'.not_has hdots⟩
  · rw [hbuilt.exists_iff, hzl.has_iff hin]

/-- NXDOMAIN is answered when the closest zone has nothing at or below the name. -/
theorem lookup_has (h : compile lib zs = .ok s) {q : Msg}
    (hq : q.question.length = 1 ∧ q.question0.qclass = classINET) (hname : lower q.question0.name = present n)
    (hz : Selected (zoneAt zs) n (some z)) (halias : z.answer (dotted n) typeCNAME = []) :
    ∃ m, s.lookup q = some m ∧ Exact z n q.question0.qtype (z.Has n) m := by
  obtain ⟨v, hpresent, hfind, hsame, hlookup, hexists⟩ := found_of_selected h hz
  rw [hpresent] at hname
  have hhas : v.zone.Has n ↔ z.Has n := by
    rcases hsame with heq | ⟨h1, h2⟩
    · rw [heq]
    · exact iff_of_false h1 h2
  have hnone : v.lookup (dotted n) typeCNAME = [] := by
    rw [hlookup]
    rcases hsame with heq | ⟨h1, -⟩
    · rw [heq]
      exact halias
    · by_contra hsome
      exact h1 (has_of_answer rfl hsome)
  rw [Snapshot.lookup_eq hq, hname, hfind]
  refine ⟨_, rfl, ?_⟩
  have hcode : (setReply q).rcode = rcodeSuccess := rfl
  have hanswer : (setReply q).answer = [] := rfl
  have hns : (setReply q).ns = [] := rfl
  have hdiff : rcodeSuccess ≠ rcodeNameError := by decide
  generalize setReply q = m at *
  rw [chase_first hfind hnone 15, hlookup]
  by_cases hkind : v.zone.answer (dotted n) q.question0.qtype = []
  · rw [hhas] at hexists
    rw [if_neg (by simpa using hkind)]
    by_cases hz' : z.Has n
    · have heq : v.zone = z := hsame.resolve_right fun hno => hno.2 hz'
      rw [heq] at hkind
      have hrcode : (if (v.exists.lookup (dotted n)).getD false = true then m.rcode else rcodeNameError) =
          rcodeSuccess := by rw [if_pos (hexists.2 hz'), hcode]
      constructor
      · exact iff_of_false (by rw [hrcode]; exact hdiff) (not_not.2 hz')
      · intro _
        refine ⟨hrcode, hanswer.trans hkind.symm, ?_⟩
        rw [if_pos hanswer, ← heq]
        rfl
    · have hrcode : (if (v.exists.lookup (dotted n)).getD false = true then m.rcode else rcodeNameError) =
          rcodeNameError := if_neg fun h => hz' (hexists.1 h)
      exact ⟨iff_of_true hrcode hz', fun hno => absurd hrcode hno⟩
  · have hz' : z.Has n := hhas.1 (has_of_answer rfl hkind)
    have heq : v.zone = z := hsame.resolve_right fun hno => hno.2 hz'
    rw [heq] at hkind ⊢
    rw [if_pos hkind]
    constructor
    · exact iff_of_false (by rw [← hcode] at hdiff; exact hdiff) (not_not.2 hz')
    · intro _
      refine ⟨hcode, by rw [hanswer, List.nil_append], ?_⟩
      rw [hanswer, List.nil_append, if_neg hkind, hns]

theorem exact_iff {m : Msg} {existent : Prop} (hm : Exact z n kind (z.Has n) m) (hsub : z.Has n → existent) :
    Exact z n kind existent m ↔ (existent → z.Has n) := by
  constructor
  · intro hexact hex
    by_contra hno
    exact hexact.denied.1 (hm.denied.2 hno) hex
  · intro hback
    refine ⟨?_, hm.otherwise⟩
    rw [hm.denied]
    exact not_congr ⟨hsub, hback⟩

/-- **When NXDOMAIN is answered exactly for the names that do not exist**: when the closest zone has something at or below the
name as soon as any zone has, whether owners inside another zone are counted or not. -/
theorem lookup_exact_iff (h : compile lib zs = .ok s) {w : WireName} {q : Msg}
    (hq : q.question.length = 1 ∧ q.question0.qclass = classINET) (hname : q.question0.name = present w.labels)
    (hz : Selected (zoneAt zs) (folded w.labels) (some z))
    (halias : z.answer (dotted (folded w.labels)) typeCNAME = []) :
    ∃ m, s.lookup q = some m ∧
      (Exact z (folded w.labels) q.question0.qtype (Existent zs (folded w.labels)) m ↔
        (Existent zs (folded w.labels) → z.Has (folded w.labels))) ∧
      (Exact z (folded w.labels) q.question0.qtype (Visible zs (folded w.labels)) m ↔
        (Visible zs (folded w.labels) → z.Has (folded w.labels))) := by
  obtain ⟨m, hm, hdenied⟩ := lookup_has h hq (by rw [hname, lower_present]) hz halias
  obtain ⟨t, -, hat, -⟩ := id hz
  refine ⟨m, hm, exact_iff hdenied fun hhas => ?_, exact_iff hdenied (visible_of_has hz)⟩
  exact ⟨z, (mem_of_zoneAt hat).1, hhas⟩

end

/-! ### A name between two zones -/

namespace Nested

/-- The name `web.lab.home`. -/
def web : WireName := ⟨[[119, 101, 98], [108, 97, 98], [104, 111, 109, 101]], by decide, by decide⟩

/-- The zones `home` and `a.lab.home`, which have no records. -/
def apart : List Zone := [zone 1 "home" [], zone 2 "a.lab.home" []]

/-- The name `lab.home`, which is between the two. -/
def lab : WireName := ⟨[[108, 97, 98], [104, 111, 109, 101]], by decide, by decide⟩

/-- The closest zone, when it has no alias for the name. -/
theorem closest {zs : List Zone} {n : List (List UInt8)}
    (h : (n.tails.findSome? (zoneAt zs)).map (fun z => z.answer (dotted n) typeCNAME) = some []) :
    ∃ z, Selected (zoneAt zs) n (some z) ∧ z.answer (dotted n) typeCNAME = [] := by
  obtain ⟨z, hz, halias⟩ := Option.map_eq_some_iff.1 h
  exact ⟨z, selected_iff.2 hz, halias⟩

end Nested

/-- The address of a host is an answer of its zone. -/
theorem lookup_exact_web :
    ∃ s z m, compile Nested.lib Nested.home = .ok s ∧ s.lookup (Nested.query "web.lab.home.") = some m ∧
      Exact z (folded Nested.web.labels) typeA (Existent Nested.home (folded Nested.web.labels)) m := by
  have hok : (compile Nested.lib Nested.home).toOption.isSome = true := by decide +kernel
  obtain ⟨s, hs⟩ := Option.isSome_iff_exists.1 hok
  have hcompile := Loops.eq_ok_of_toOption hs
  have hrun : ((folded Nested.web.labels).tails.findSome? (zoneAt Nested.home)).map (fun z =>
      (z.answer (dotted (folded Nested.web.labels)) typeCNAME, (z.answer (dotted (folded Nested.web.labels)) typeA).length)) =
        some ([], 1) := by decide +kernel
  obtain ⟨z, hz, hanswers⟩ := Option.map_eq_some_iff.1 hrun
  rw [Prod.mk.injEq] at hanswers
  obtain ⟨m, hm, hany, -⟩ := lookup_exact_iff hcompile (q := Nested.query "web.lab.home.") (w := Nested.web) (by decide)
    (by decide) (selected_iff.2 hz) hanswers.1
  refine ⟨s, z, m, hcompile, hm, hany.2 fun _ => ?_⟩
  refine @has_of_answer _ _ _ typeA rfl fun hnil => ?_
  rw [hnil] at hanswers
  cases hanswers.2

/-- NXDOMAIN is answered for a name above the apex of a zone. -/
theorem lookup_not_exact :
    ∃ s z m, compile Nested.lib Nested.apart = .ok s ∧ Selected (zoneAt Nested.apart) (folded Nested.lab.labels) (some z) ∧
      z.answer (dotted (folded Nested.lab.labels)) typeCNAME = [] ∧ s.lookup (Nested.query "lab.home.") = some m ∧
      ¬ Exact z (folded Nested.lab.labels) typeA (Existent Nested.apart (folded Nested.lab.labels)) m ∧
      ¬ Exact z (folded Nested.lab.labels) typeA (Visible Nested.apart (folded Nested.lab.labels)) m := by
  have hrun : (compile Nested.lib Nested.apart).toOption.map (fun s =>
      (s.lookup (Nested.query "lab.home.")).map Msg.rcode) = some (some rcodeNameError) := by decide +kernel
  obtain ⟨s, hs, hlookup⟩ := Option.map_eq_some_iff.1 hrun
  obtain ⟨m, hm, hcode⟩ := Option.map_eq_some_iff.1 hlookup
  obtain ⟨z, hz, halias⟩ := @Nested.closest Nested.apart (folded Nested.lab.labels) (by decide +kernel)
  have hinner : (zonesOf Nested.apart).any (fun z => z.name = dotted ([97] :: folded Nested.lab.labels)) = true := by
    decide +kernel
  obtain ⟨inner, hmem, hname⟩ := List.any_eq_true.1 hinner
  have hapex : AtOrBelow (folded Nested.lab.labels) inner.name := ⟨[[97]], of_decide_eq_true hname⟩
  refine ⟨s, z, m, Loops.eq_ok_of_toOption hs, hz, halias, hm, ?_, ?_⟩
  · exact fun h => h.denied.1 hcode ⟨inner, hmem, Or.inl hapex⟩
  · exact fun h => h.denied.1 hcode ⟨inner, hmem, Or.inl hapex⟩

end Velora.Zones
