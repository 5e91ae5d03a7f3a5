import Velora.Lib.Loops
import Velora.Zones.Snapshot

/-!
# What `compile` accepts

A snapshot that `compile` returns is well formed (`compile_ok`): every record of a zone is the wire form of a record in
normal form and stands under its own name, an alias stands alone and never at the apex, its target is a name in normal
form, and no chain of aliases is longer than sixteen names.
-/

namespace Velora.Zones

open Velora.Lib Velora.Lib.Text Velora.Lib.Ip Velora.Wire Velora.Dns

/-! ### Records -/

/-- A name in normal form: in lower case and fully qualified. -/
structure Normal (name : Str) : Prop where
  lower_eq : lower name = name
  dot : name.getLast? = some '.'

theorem domain_ok {value name : Str} (h : domain value = .ok name) : Normal name := by
  simp only [domain, bind, Except.bind, pure, Except.pure] at h
  split at h
  · cases h
  split at h
  · cases h
  · cases h
    refine ⟨?_, by simp⟩
    rw [lower_append, lower_lower]
    rfl

/-- What `recordRR` makes of a record. -/
theorem recordRR_ok {r : Record} {rr : RR} (h : recordRR r = .ok rr) :
    rr.hdr = ⟨r.name, classINET, r.ttl⟩ ∧
      rr.rrtype ∈ [typeA, typeAAAA, typeCNAME, typeMX, typeNS, typePTR, typeTXT] ∧
      ∀ target, rr.cname? = some target → r.type = "CNAME".toList ∧ r.value = target := by
  unfold recordRR at h
  dsimp only at h
  split_ifs at h with h1 h2 h3 h4 h5 h6 h7 h8
  · split at h
    · cases h
      exact ⟨rfl, by simp [RR.rrtype, RData.rrtype], by simp [RR.cname?]⟩
    · cases h
  · split at h
    · split at h
      · cases h
      · cases h
        exact ⟨rfl, by simp [RR.rrtype, RData.rrtype], by simp [RR.cname?]⟩
    · cases h
  · cases h
    exact ⟨rfl, by simp [RR.rrtype, RData.rrtype], by simp [RR.cname?, h3]⟩
  · cases h
    exact ⟨rfl, by simp [RR.rrtype, RData.rrtype], by simp [RR.cname?]⟩
  · cases h
    exact ⟨rfl, by simp [RR.rrtype, RData.rrtype], by simp [RR.cname?]⟩
  · cases h
    exact ⟨rfl, by simp [RR.rrtype, RData.rrtype], by simp [RR.cname?]⟩
  · cases h
    exact ⟨rfl, by simp [RR.rrtype, RData.rrtype], by simp [RR.cname?]⟩

/-- An alias in normal form is below its zone, and so is the name of its target. -/
theorem normalizeRecord_cname {zone : Str} {r r' : Record} (h : normalizeRecord zone r = .ok r')
    (hc : r'.type = "CNAME".toList) : r'.name ≠ zone ∧ Normal r'.value := by
  simp only [normalizeRecord, bind, Except.bind, pure, Except.pure, throw, throwThe, MonadExceptOf.throw] at h
  split at h
  · cases h
  split at h
  · cases h
  split at h
  · cases h
  split at h
  · cases h
  split at h
  · cases h
  rename_i value hvalue
  split at h
  · cases h
  rename_i h4
  split at h
  · cases h
  split at h
  · cases h
  cases h
  refine ⟨fun hz => h4 ⟨hc, hz⟩, ?_⟩
  unfold normalizeValue at hvalue
  rw [if_pos (by simp only at hc; simp [hc])] at hvalue
  exact domain_ok hvalue

/-! ### Views -/

@[simp] theorem View.at'_insert (v : View) (ex : Map Str Bool) (k name : Str) (l : List RR) :
    View.at' { v with records := v.records.insert k l, «exists» := ex } name =
      if name = k then l else v.at' name := by
  unfold View.at'
  split
  · rename_i h
    subst h
    simp
  · rename_i h
    simp [AList.lookup_insert_ne h]

/-- The records of a view are wire forms of the records of the zone, under their own names, and an alias is alone. -/
structure Served (records : List Record) (v : View) : Prop where
  made : ∀ owner, ∀ rr ∈ v.at' owner, ∃ r ∈ records, recordRR r = .ok rr ∧ r.name = owner
  alone : ∀ owner, ∀ rr ∈ v.at' owner, rr.rrtype = typeCNAME → v.at' owner = [rr]

theorem addRecord_served {lib : Miekg} {records : List Record} {b b' : Build} {r : Record} (hr : r ∈ records)
    (hb : Served records b.view) (h : addRecord lib b r = .ok b') :
    Served records b'.view ∧ b'.view.zone = b.view.zone := by
  simp only [addRecord, bind, Except.bind, pure, Except.pure, throw, throwThe, MonadExceptOf.throw] at h
  split at h
  · cases h
  split at h
  · cases h
  rename_i rr hrr
  split at h
  · cases h
  split at h
  · cases h
  rename_i hclash
  cases h
  refine ⟨⟨?_, ?_⟩, rfl⟩
  · intro owner x hx
    rw [View.at'_insert] at hx
    split at hx
    · rename_i ho
      subst ho
      rcases List.mem_append.1 hx with hx | hx
      · exact hb.made r.name x hx
      · rw [List.mem_singleton.1 hx]
        exact ⟨r, hr, hrr, rfl⟩
    · exact hb.made owner x hx
  · intro owner x hx hcname
    rw [View.at'_insert] at hx ⊢
    split at hx
    · rename_i ho
      subst ho
      rw [if_pos rfl]
      cases hold : b.view.at' r.name with
      | nil =>
        rw [hold] at hx
        rw [List.mem_singleton.1 hx]
        rfl
      | cons y ys =>
        -- two records of one name, and none of them an alias
        have hno : ∀ z ∈ b.view.at' r.name, z.rrtype ≠ typeCNAME ∧ rr.rrtype ≠ typeCNAME := by
          intro z hz
          have := List.findSome?_eq_none_iff.1 hclash z hz
          unfold View.clash at this
          split at this
          · cases this
          · rename_i hne
            exact not_or.1 hne
        rcases List.mem_append.1 hx with hx | hx
        · exact absurd hcname (hno x hx).1
        · rw [List.mem_singleton.1 hx] at hcname
          exact absurd hcname (hno y (by rw [hold]; exact List.mem_cons_self)).2
    · rename_i ho
      rw [if_neg ho]
      exact hb.alone owner x hx hcname

/-! ### The snapshot -/

/-- A well-formed view of a zone. -/
structure WellFormed (v : View) : Prop where
  owner : ∀ name, ∀ rr ∈ v.at' name, rr.name = name
  types : ∀ name, ∀ rr ∈ v.at' name, rr.rrtype ∈ [typeA, typeAAAA, typeCNAME, typeMX, typeNS, typePTR, typeTXT]
  alone : ∀ name, ∀ rr ∈ v.at' name, rr.rrtype = typeCNAME → v.at' name = [rr]
  targets : ∀ name, ∀ rr ∈ v.at' name, ∀ target, rr.cname? = some target → Normal target ∧ name ≠ v.zone.name

/-- A well-formed snapshot. -/
structure Compiled (s : Snapshot) : Prop where
  views : ∀ name v, s.byName.lookup name = some v → v.zone.name = name ∧ WellFormed v
  loopFree : s.loopFree = true

theorem wellFormed_of_served {z : Zone} {inputs : List Record} {v : View} (hv : Served z.records v) (hz : v.zone = z)
    (hn : inputs.mapM (normalizeRecord z.name) = .ok z.records) : WellFormed v where
  owner name rr hrr := by
    obtain ⟨r, -, hrec, rfl⟩ := hv.made name rr hrr
    rw [RR.name, (recordRR_ok hrec).1]
  types name rr hrr := by
    obtain ⟨r, -, hrec, -⟩ := hv.made name rr hrr
    exact (recordRR_ok hrec).2.1
  alone := hv.alone
  targets name rr hrr target ht := by
    obtain ⟨r, hr, hrec, rfl⟩ := hv.made name rr hrr
    obtain ⟨htype, rfl⟩ := (recordRR_ok hrec).2.2 target ht
    obtain ⟨r₀, -, hnorm⟩ := Loops.mem_of_mapM_ok hn r hr
    obtain ⟨hne, hval⟩ := normalizeRecord_cname hnorm htype
    rw [hz]
    exact ⟨hval, hne⟩

theorem addZone_views {lib : Miekg} {acc acc' : Snapshot × ℕ} {input : Zone}
    (hacc : ∀ name v, acc.1.byName.lookup name = some v → v.zone.name = name ∧ WellFormed v)
    (h : addZone lib acc input = .ok acc') :
    ∀ name v, acc'.1.byName.lookup name = some v → v.zone.name = name ∧ WellFormed v := by
  simp only [addZone, bind, Except.bind, pure, Except.pure, throw, throwThe, MonadExceptOf.throw] at h
  split at h
  · cases h
  rename_i z hz
  split_ifs at h with h1 h2
  split at h
  · cases h
  rename_i b hb
  cases h
  have hnorm : input.records.mapM (normalizeRecord z.name) = .ok z.records := by
    simp only [normalize, bind, Except.bind, pure, Except.pure, throw, throwThe, MonadExceptOf.throw] at hz
    split at hz
    · cases hz
    split at hz
    · cases hz
    split at hz
    · cases hz
    split_ifs at hz
    split at hz
    · cases hz
    rename_i hm
    cases hz
    exact hm
  have hserved : Served z.records b.view ∧ b.view.zone = z := by
    refine Loops.foldlM_invariant (P := fun b => Served z.records b.view ∧ b.view.zone = z) ?_ ?_ hb
    · rintro r hr c c' ⟨hc, hzone⟩ hstep
      obtain ⟨h3, h4⟩ := addRecord_served hr hc hstep
      exact ⟨h3, h4.trans hzone⟩
    · exact ⟨⟨fun owner rr hrr => by simp [View.at'] at hrr, fun owner rr hrr => by simp [View.at'] at hrr⟩, rfl⟩
  intro name v hv
  by_cases hname : name = z.name
  · subst hname
    rw [AList.lookup_insert, Option.some.injEq] at hv
    subst hv
    exact ⟨by rw [hserved.2], wellFormed_of_served hserved.1 hserved.2 hnorm⟩
  · rw [AList.lookup_insert_ne hname] at hv
    exact hacc name v hv

/-- **`compile` returns well-formed snapshots only.** -/
theorem compile_ok {lib : Miekg} {all : List Zone} {s : Snapshot} (h : compile lib all = .ok s) : Compiled s := by
  simp only [compile, bind, Except.bind, pure, Except.pure, throw, throwThe, MonadExceptOf.throw] at h
  split_ifs at h
  split at h
  · cases h
  rename_i acc hacc
  split at h
  · rename_i hfree
    cases h
    refine ⟨?_, hfree⟩
    exact Loops.foldlM_invariant (P := fun acc : Snapshot × ℕ =>
        ∀ name v, acc.1.byName.lookup name = some v → v.zone.name = name ∧ WellFormed v)
      (fun a _ b b' hb hstep => addZone_views hb hstep) (by simp) hacc
  · cases h

end Velora.Zones
