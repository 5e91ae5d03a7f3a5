import Velora.Dns.Dnssec
import Velora.Lib.Cycle

/-!
# What an NSEC record covers

`nsecCovers` compares names as texts from the left, where the names of a zone are chained in the canonical order, label by
label from the right. It is right about a name exactly when the two orders differ on an even number of the three pairs of
owner, next name and name (`nsec_covers`); where they do, an accepted denial is one in every zone of which the records are
part (`denied`).
-/

namespace Velora.Dns

open Velora.Lib Velora.Lib.Text Velora.Lib.Cycle Velora.Wire

/-- What a name is ordered by in its zone. -/
def zoneKey (name : Str) : List (List ℕ) := canonicalKey (splitDomainName name)

/-- The name lies strictly between the owner and the next name of the record, in the canonical order. -/
def canonicallyCovers (nsec : Typed NSEC) (name : Str) : Bool :=
  between (zoneKey nsec.hdr.name) (zoneKey nsec.rd.nextDomain) (zoneKey name)

/-- The texts of two names are not ordered as the names are. -/
def misordered (a b : Str) : Bool := decide (canonicalName a < canonicalName b) ^^ decide (zoneKey a < zoneKey b)

/-- An even number of the comparisons with a record are misordered. -/
def evenlyMisordered (nsec : Typed NSEC) (name : Str) : Bool :=
  !(misordered nsec.hdr.name nsec.rd.nextDomain ^^ misordered nsec.hdr.name name ^^ misordered name nsec.rd.nextDomain)

theorem nsecCovers_eq (nsec : Typed NSEC) (name : Str) :
    nsecCovers nsec name =
      between (canonicalName nsec.hdr.name) (canonicalName nsec.rd.nextDomain) (canonicalName name) := by
  rw [nsecCovers, between]
  congr!

/-- **Coverage.** -/
theorem nsecCovers_iff (nsec : Typed NSEC) (name : Str) :
    nsecCovers nsec name = canonicallyCovers nsec name ↔ evenlyMisordered nsec name = true := by
  have parity : ∀ a b c a' b' c' : Bool,
      (a ^^ b ^^ c) = (a' ^^ b' ^^ c') ↔ (!(a ^^ a' ^^ (b ^^ b') ^^ (c ^^ c'))) = true := by decide
  rw [nsecCovers_eq, canonicallyCovers, between_eq, between_eq, evenlyMisordered, misordered, misordered, misordered,
    parity]
  congr!

/-! ### Zones -/

/-- The names of a zone in the canonical order. -/
structure SignedZone where
  names : List Str
  sorted : (names.map zoneKey).Pairwise (· < ·)

/-- The record is part of the NSEC chain of the zone. -/
def SignedZone.Chains (z : SignedZone) (nsec : Typed NSEC) : Prop :=
  Follows (z.names.map zoneKey) (zoneKey nsec.hdr.name) (zoneKey nsec.rd.nextDomain)

/-- The zone has a name with the key. -/
def SignedZone.Has (z : SignedZone) (key : List (List ℕ)) : Prop := ∃ name ∈ z.names, zoneKey name = key

theorem SignedZone.not_has {z : SignedZone} {nsec : Typed NSEC} (h : z.Chains nsec) {name : Str}
    (hcov : canonicallyCovers nsec name = true) : ¬ z.Has (zoneKey name) := by
  rintro ⟨m, hm, hkey⟩
  exact notMem_of_between z.sorted h hcov (hkey ▸ List.mem_map_of_mem hm)

/-! ### The wildcard -/

/-- The dot of the wildcard ends every run of backslashes. -/
theorem takeWhile_wildcard (r : Str) :
    (r ++ ['.', '*']).takeWhile (· == '\\') = r.takeWhile (· == '\\') := by
  induction r with
  | nil => rfl
  | cons d r ih =>
    rw [List.cons_append, List.takeWhile_cons, List.takeWhile_cons]
    split
    · rw [ih]
    · rfl

theorem isFqdn_wildcard {closest : Str} (h : closest ≠ []) : isFqdn (wildcardOf closest) = isFqdn closest := by
  have hrev : (wildcardOf closest).reverse = closest.reverse ++ ['.', '*'] := by simp [wildcardOf]
  obtain ⟨c, r, hc⟩ := List.exists_cons_of_ne_nil (mt List.reverse_eq_nil_iff.1 h)
  rw [isFqdn, isFqdn, hrev, hc, List.cons_append]
  by_cases hdot : c = '.'
  · subst hdot
    simp only [takeWhile_wildcard]
  · simp [hdot]

/-- The labels of the wildcard below a name that is not the root. -/
theorem splitDomainName_wildcard {closest : Str} (hne : closest ≠ []) (hroot : closest ≠ root) :
    splitDomainName (wildcardOf closest) = ['*'] :: splitDomainName closest := by
  have hwithout : withoutRoot (wildcardOf closest) = '*' :: '.' :: withoutRoot closest := by
    rw [withoutRoot, withoutRoot, isFqdn_wildcard hne]
    split
    · rw [wildcardOf, List.dropLast_cons_of_ne_nil (by simp), List.dropLast_cons_of_ne_nil hne]
    · rfl
  rw [splitDomainName, if_neg (by simp [wildcardOf, root]), hwithout, splitDomainName, if_neg (by simp [hne, hroot])]
  rfl

theorem zoneKey_wildcard {closest : Str} (hne : closest ≠ []) (hroot : closest ≠ root) :
    zoneKey (wildcardOf closest) = zoneKey closest ++ [[42]] := by
  rw [zoneKey, zoneKey, splitDomainName_wildcard hne hroot, canonicalKey, canonicalKey, List.map_cons, List.reverse_cons]
  rfl

theorem ne_nil_of_mem_ancestors {labels : List Str} {closest : Str} (h : closest ∈ ancestors labels) : closest ≠ [] := by
  cases labels with
  | nil => cases h
  | cons l ls =>
    obtain ⟨rest, -, rfl⟩ := List.mem_map.1 h
    split
    · decide
    · simp [joinLabels]

/-! ### Denials -/

/-- **What an accepted denial is worth.** -/
theorem denied {name closest : Str} {proofs : List (Typed NSEC)}
    (hclosest : closestEncloser name (fun candidate => proofs.any (fun p => equalFold p.hdr.name candidate)) = some closest)
    (hvalid : validNSECNXDomain name proofs = true) (hroot : closest ≠ root)
    (heven : ∀ p ∈ proofs, evenlyMisordered p name = true ∧ evenlyMisordered p (wildcardOf closest) = true)
    {z : SignedZone} (hz : ∀ p ∈ proofs, z.Chains p) :
    ¬ z.Has (zoneKey name) ∧ ¬ z.Has (zoneKey closest ++ [[42]]) := by
  have hne : closest ≠ [] := ne_nil_of_mem_ancestors (List.mem_of_find?_eq_some hclosest)
  rw [validNSECNXDomain, hclosest] at hvalid
  dsimp only at hvalid
  rw [Bool.and_eq_true, coveredByNSEC, coveredByNSEC, List.any_eq_true, List.any_eq_true] at hvalid
  obtain ⟨⟨p, hp, hname⟩, ⟨p', hp', hwild⟩⟩ := hvalid
  refine ⟨SignedZone.not_has (hz p hp) ?_, ?_⟩
  · rw [← (nsecCovers_iff p name).2 (heven p hp).1]
    exact hname
  · rw [← zoneKey_wildcard hne hroot]
    refine SignedZone.not_has (hz p' hp') ?_
    rw [← (nsecCovers_iff p' (wildcardOf closest)).2 (heven p' hp').2]
    exact hwild

def nsecOf (owner next : String) : Typed NSEC := ⟨⟨owner.toList, classINET, 300⟩, ⟨next.toList, []⟩⟩

def exampleZone : SignedZone where
  names := ["example.".toList, "a.example.".toList, "www.example.".toList]
  sorted := by decide

end Velora.Dns
