import Velora.Lib.Loops
import Velora.Zones.Snapshot

/-!
# The normal form of a zone

`normalize` changes nothing in a zone it has returned (`normalize_normal`), for every type of record: a name is in lower
case and absolute, a type in upper case, an address is printed as it is read. This is what makes the zones of a
repository load as they were saved.
-/

namespace Velora.Zones

open Velora.Lib Velora.Lib.Text Velora.Lib.Ip Velora.Lib.Loops Velora.Wire Velora.Dns

/-! ### Names -/

theorem domain_eq_ok {value name : Str} : domain value = .ok name ↔
    ¬ (lower (trimDot value) = [] ∨ byteLen (lower (trimDot value)) > 253) ∧
      (splitDots (lower (trimDot value))).forM checkLabel = .ok () ∧ lower (trimDot value) ++ ['.'] = name := by
  unfold domain
  dsimp only
  split
  · rename_i h
    exact iff_of_false (by simp) (fun hn => hn.1 h)
  · rename_i h
    simp only [h, not_false_eq_true, true_and, bind_eq_ok, pure_eq_ok]
    exact ⟨fun ⟨_, h1, h2⟩ => ⟨h1, h2⟩, fun ⟨h1, h2⟩ => ⟨(), h1, h2⟩⟩

theorem trimDot_append (s : Str) : trimDot (s ++ ['.']) = s := by
  simp [trimDot]

/-- `domain` leaves a name it has returned as it is. -/
theorem domain_domain {value name : Str} (h : domain value = .ok name) : domain name = .ok name := by
  rw [domain_eq_ok] at h
  obtain ⟨hlen, hlabels, rfl⟩ := h
  rw [domain_eq_ok, trimDot_append, lower_lower]
  exact ⟨hlen, hlabels, rfl⟩

/-- A name that `domain` has returned is not empty and ends with a dot. -/
theorem domain_dot {value name : Str} (h : domain value = .ok name) : ∃ v, v ≠ [] ∧ name = v ++ ['.'] := by
  rw [domain_eq_ok] at h
  exact ⟨_, fun h0 => h.1 (Or.inl h0), h.2.2.symm⟩

theorem qualify_domain {value name : Str} (zone : Str) (h : domain value = .ok name) : qualify zone name = name := by
  obtain ⟨v, hv, rfl⟩ := domain_dot h
  have hlast : (v ++ ['.']).getLast? = some '.' := by simp
  unfold qualify
  rw [if_neg, if_pos hlast]
  rintro (h | h)
  · rw [h] at hlast
    cases hlast
  · simp at h

/-! ### Records -/

theorem normalizeValue_normal {type value value' : Str} (h : normalizeValue type value = .ok value') :
    normalizeValue type value' = .ok value' := by
  unfold normalizeValue at h ⊢
  split_ifs at h ⊢
  · exact domain_domain h
  · split at h
    · rename_i ip hip
      cases h
      rw [parseIP_ipString hip]
    · cases h
  · rfl

/-- What `normalizeRecord` has checked and changed. -/
theorem normalizeRecord_eq_ok {zone : Str} {r r' : Record} : normalizeRecord zone r = .ok r' ↔
    ∃ name, domain (qualify zone r.name) = .ok name ∧ isSubDomain zone name = true ∧ ¬ r.ttl > 86400 ∧
      ¬ (upper r.type ≠ "MX".toList ∧ r.priority ≠ 0) ∧ ∃ value, normalizeValue (upper r.type) r.value = .ok value ∧
        ¬ (upper r.type = "CNAME".toList ∧ name = zone) ∧ ¬ (upper r.type = "NS".toList ∧ name ≠ zone) ∧
        (∃ rr, recordRR { r with name := name, type := upper r.type, value := value } = .ok rr) ∧
        { r with name := name, type := upper r.type, value := value } = r' := by
  unfold normalizeRecord
  simp only [bind_eq_ok, guard_eq_ok, pure_eq_ok, Bool.not_eq_true', Bool.not_eq_false, exists_and_right]

theorem normalizeRecord_normal {zone : Str} {r r' : Record} (h : normalizeRecord zone r = .ok r') :
    normalizeRecord zone r' = .ok r' := by
  obtain ⟨name, hname, hsub, httl, hprio, value, hvalue, hcname, hns, hrr, rfl⟩ := normalizeRecord_eq_ok.1 h
  rw [normalizeRecord_eq_ok]
  refine ⟨name, ?_, hsub, httl, ?_, value, ?_, ?_, ?_, ?_, ?_⟩
  · rw [qualify_domain zone hname]
    exact domain_domain hname
  all_goals rw [upper_upper]
  · exact hprio
  · exact normalizeValue_normal hvalue
  · exact hcname
  · exact hns
  · exact hrr

/-! ### Zones -/

/-- What `normalize` has checked and changed. -/
theorem normalize_eq_ok {z z' : Zone} : normalize z = .ok z' ↔
    ∃ name, domain z.name = .ok name ∧
      ∃ ns, domain (if z.primaryNS = [] then "ns.".toList ++ name else z.primaryNS) = .ok ns ∧
      ∃ contact, domain (if z.contact = [] then "hostmaster.".toList ++ name else z.contact) = .ok contact ∧
      ¬ z.records.length > maxRecords ∧
      ∃ records, z.records.mapM (normalizeRecord name) = .ok records ∧
        { z with name := name, primaryNS := ns, contact := contact, records := records } = z' := by
  unfold normalize
  simp only [bind_eq_ok, guard_eq_ok, pure_eq_ok]

/-- A zone that `normalize` leaves as it is. -/
def NormalZone (z : Zone) : Prop := normalize z = .ok z

instance (z : Zone) : Decidable (NormalZone z) := by unfold NormalZone; infer_instance

/-- **`normalize` leaves a zone it has returned as it is.** -/
theorem normalize_normal {z z' : Zone} (h : normalize z = .ok z') : NormalZone z' := by
  obtain ⟨name, hname, ns, hns, contact, hcontact, hlen, records, hrecords, rfl⟩ := normalize_eq_ok.1 h
  obtain ⟨v, -, hv⟩ := domain_dot hns
  obtain ⟨v', -, hv'⟩ := domain_dot hcontact
  unfold NormalZone
  rw [normalize_eq_ok]
  refine ⟨name, domain_domain hname, ns, ?_, contact, ?_, ?_, records, ?_, rfl⟩
  · rw [if_neg (by simp [hv])]
    exact domain_domain hns
  · rw [if_neg (by simp [hv'])]
    exact domain_domain hcontact
  · rw [length_of_mapM_ok hrecords]
    exact hlen
  · refine mapM_ok_of_fixed (fun r hr => ?_)
    obtain ⟨r₀, -, hr₀⟩ := mem_of_mapM_ok hrecords r hr
    exact normalizeRecord_normal hr₀

end Velora.Zones
