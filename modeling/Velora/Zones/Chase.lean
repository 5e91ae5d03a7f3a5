import Velora.Zones.Compile

/-!
# The walk along the aliases of the zones

`Lookup` follows aliases from zone to zone in a loop of sixteen turns. `Chases` says what the loop collects from a name on,
without turns: the loop gives that whenever it has turns enough (`chase_eq`), and in a snapshot that `compile` returned it
always has (`chases_of_alias`).
-/

namespace Velora.Zones

open Velora.Lib Velora.Lib.Text Velora.Wire Velora.Dns

/-- How a walk along aliases ends: at a name outside the zones, at records of the type, or at a zone that denies. -/
inductive End where
  | outside (name : Str) | records | denied (zone : View)

/-- From a name on, the walk follows so many aliases, collects these records and ends this way. -/
inductive Chases (s : Snapshot) (kind : UInt16) : ℕ → Str → List RR → End → Prop
  | leaves {name} (nowhere : s.find name = none) : Chases s kind 0 name [] (.outside name)
  | has {name v} (owner : s.find name = some v) (some' : v.lookup name kind ≠ []) :
      Chases s kind 0 name (v.lookup name kind) .records
  | follows {n name v rr target answer fin} (owner : s.find name = some v) (none' : v.lookup name kind = [])
      (one : v.lookup name typeCNAME = [rr]) (goes : rr.cname? = some target)
      (rest : Chases s kind n target answer fin) : Chases s kind (n + 1) name (rr :: answer) fin
  | lacks {name v} (owner : s.find name = some v) (none' : v.lookup name kind = [])
      (noAlias : v.lookup name typeCNAME = []) : Chases s kind 0 name [] (.denied v)

/-- The message at the end of a walk; a zone that denies sets the response code and the authority section. -/
def End.close (rcode : ℕ) (m : Msg) : End → Msg
  | .denied v => { m with rcode := rcode, ns := [v.soa] }
  | _ => m

section

variable {s : Snapshot} {kind : UInt16}

/-- The loop collects what the walk collects. -/
theorem chase_eq {n : ℕ} {name : Str} {answer : List RR} {fin : End} (h : Chases s kind n name answer fin) {turns : ℕ}
    (hturns : n < turns) (m : Msg) :
    ∃ rcode, (rcode = m.rcode ∨ rcode = rcodeNameError) ∧
      s.chase kind turns name m = fin.close rcode { m with answer := m.answer ++ answer } := by
  induction h generalizing turns m with
  | leaves nowhere =>
    obtain ⟨turns, rfl⟩ := Nat.exists_eq_succ_of_ne_zero (Nat.ne_of_gt hturns)
    refine ⟨m.rcode, Or.inl rfl, ?_⟩
    rw [Snapshot.chase, nowhere, List.append_nil]
    rfl
  | has owner some' =>
    obtain ⟨turns, rfl⟩ := Nat.exists_eq_succ_of_ne_zero (Nat.ne_of_gt hturns)
    refine ⟨m.rcode, Or.inl rfl, ?_⟩
    rw [Snapshot.chase, owner]
    dsimp only
    rw [if_pos some']
    rfl
  | @follows n name v rr target answer fin owner none' one goes rest ih =>
    obtain ⟨turns, rfl⟩ : ∃ k, turns = k + 1 := ⟨turns - 1, by omega⟩
    have hlt : n < turns := by omega
    obtain ⟨rcode, hcode, hrest⟩ := ih hlt { m with answer := m.answer ++ [rr] }
    refine ⟨rcode, hcode, ?_⟩
    rw [Snapshot.chase, owner]
    simp only [none', one, goes, Option.getD_some, ne_eq, not_true_eq_false, if_false]
    rw [hrest]
    simp only [List.append_assoc, List.cons_append, List.nil_append]
  | @lacks name v owner none' noAlias =>
    obtain ⟨turns, rfl⟩ := Nat.exists_eq_succ_of_ne_zero (Nat.ne_of_gt hturns)
    refine ⟨if (v.exists.lookup name).getD false then m.rcode else rcodeNameError, by split <;> simp, ?_⟩
    rw [Snapshot.chase, owner]
    simp only [none', noAlias, ne_eq, not_true_eq_false, if_false, List.append_nil]
    rfl

/-! ### Zones that `compile` made -/

theorem Normal.ne_nil {name : Str} (h : Normal name) : name ≠ [] := by
  rintro rfl
  have := h.dot
  cases this

theorem Compiled.wellFormed (hs : Compiled s) {name : Str} {v : View} (h : s.find name = some v) : WellFormed v := by
  obtain ⟨zone, -, hzone⟩ := List.exists_of_findSome?_eq_some h
  exact (hs.views zone v hzone).2

/-- The aliases a zone has for a name are its CNAME records. -/
theorem lookup_cname (v : View) (name : Str) :
    v.lookup name typeCNAME = (v.at' name).filter (fun rr => rr.rrtype = typeCNAME) := by
  unfold View.lookup
  rw [if_neg (fun h => absurd h.2 (by decide)), if_neg (fun h => absurd h.2.1 (by decide))]

/-- A record that a zone has for a name and a type is of that type. -/
theorem rrtype_of_mem_lookup {v : View} {name : Str} {rr : RR} (h : rr ∈ v.lookup name kind) : rr.rrtype = kind := by
  unfold View.lookup at h
  dsimp only at h
  split at h
  · rename_i hsoa
    rw [List.mem_singleton.1 h, hsoa.2]
    rfl
  split at h
  · rename_i hns
    rw [List.mem_singleton.1 h, hns.2.1]
    rfl
  · simpa using (List.mem_filter.1 h).2

/-- An alias of a well-formed zone is its name's only record. -/
theorem lookup_cname_cases {v : View} (hv : WellFormed v) (name : Str) :
    v.lookup name typeCNAME = [] ∧ v.alias name = none ∨
      ∃ rr target, v.lookup name typeCNAME = [rr] ∧ v.at' name = [rr] ∧ rr.cname? = some target ∧ Normal target ∧
        v.alias name = some target := by
  rw [lookup_cname]
  by_cases h : ∃ rr ∈ v.at' name, rr.rrtype = typeCNAME
  · obtain ⟨rr, hrr, htype⟩ := h
    obtain ⟨target, htarget⟩ := Option.isSome_iff_exists.1 ((RR.cname?_isSome_iff rr).2 htype)
    have halone := hv.alone name rr hrr htype
    have hnormal := (hv.targets name rr hrr target htarget).1
    refine Or.inr ⟨rr, target, ?_, halone, htarget, hnormal, ?_⟩
    · rw [halone, List.filter_cons_of_pos (by simpa using htype), List.filter_nil]
    · simp [View.alias, halone, htarget, hnormal.ne_nil]
  · have hno : ∀ rr ∈ v.at' name, rr.rrtype ≠ typeCNAME := fun rr hrr htype => h ⟨rr, hrr, htype⟩
    refine Or.inl ⟨List.filter_eq_nil_iff.2 (by simpa using hno), ?_⟩
    have hfind : (v.at' name).findSome? RR.cname? = none := by
      refine List.findSome?_eq_none_iff.2 fun rr hrr => ?_
      by_contra hsome
      exact hno rr hrr ((RR.cname?_isSome_iff rr).1 (Option.isSome_iff_ne_none.2 hsome))
    simp [View.alias, hfind]

/-- The target of an alias of a well-formed zone is in normal form. -/
theorem WellFormed.normal_target {v : View} (hv : WellFormed v) {name target : Str} {rr : RR}
    (hone : v.lookup name typeCNAME = [rr]) (hto : rr.cname? = some target) : Normal target := by
  rcases lookup_cname_cases hv name with ⟨hnone, -⟩ | ⟨x, c, hx, -, hc, hnormal, -⟩
  · rw [hone] at hnone
    cases hnone
  · rw [hone, List.cons.injEq] at hx
    rw [← hx.1, hto, Option.some.injEq] at hc
    exact hc ▸ hnormal

/-- Where the walk of the loop check ends, the walk of the lookup ends. -/
theorem chases_of_ends (hs : Compiled s) (kind : UInt16) {fuel : ℕ} {seen : List Str} {name : Str}
    (h : s.ends fuel seen name = true) : ∃ n answer fin, n < fuel ∧ Chases s kind n name answer fin := by
  induction fuel generalizing seen name with
  | zero => cases h
  | succ fuel ih =>
    cases hfind : s.find name with
    | none => exact ⟨0, _, _, Nat.succ_pos _, .leaves hfind⟩
    | some v =>
      by_cases hkind : v.lookup name kind = []
      · rcases lookup_cname_cases (hs.wellFormed hfind) name with ⟨hnone, -⟩ | ⟨rr, target, hone, -, hto, -, halias⟩
        · exact ⟨0, _, _, Nat.succ_pos _, .lacks hfind hkind hnone⟩
        · -- the loop check goes on at the target
          have hrest : s.ends fuel (name :: seen) target = true := by
            rw [Snapshot.ends] at h
            split at h
            · cases h
            · rw [hfind] at h
              simpa [halias] using h
          obtain ⟨n, answer, fin, hn, hchase⟩ := ih hrest
          exact ⟨n + 1, _, _, Nat.succ_lt_succ hn, .follows hfind hkind hone hto hchase⟩
      · exact ⟨0, _, _, Nat.succ_pos _, .has hfind hkind⟩

/-- **The loop always ends in time.** From a name that a zone has an alias for, the walk follows fewer than sixteen
aliases. -/
theorem chases_of_alias (hs : Compiled s) (kind : UInt16) {name target : Str} {v : View} (hfind : s.find name = some v)
    (halias : v.alias name = some target) : ∃ n answer fin, n < 16 ∧ Chases s kind n name answer fin := by
  suffices hends : s.ends 16 [] name = true from chases_of_ends hs kind hends
  obtain ⟨zone, -, hzone⟩ := List.exists_of_findSome?_eq_some hfind
  have hfree := hs.loopFree
  unfold Snapshot.loopFree at hfree
  rw [List.all_eq_true] at hfree
  have hview := hfree ⟨zone, v⟩ (AList.mem_lookup_iff.1 hzone)
  rw [List.all_eq_true] at hview
  -- the alias is a record of the view under its own name
  obtain ⟨-, hno⟩ | ⟨rr, target', -, hat, hto, -, -⟩ := lookup_cname_cases (hs.wellFormed hfind) name
  · rw [hno] at halias
    cases halias
  · have hrecords : v.records.lookup name = some [rr] := by
      unfold View.at' at hat
      cases hl : v.records.lookup name with
      | none => rw [hl] at hat; cases hat
      | some records =>
        rw [hl] at hat
        exact congrArg some hat
    have hentry := hview ⟨name, [rr]⟩ (AList.mem_lookup_iff.1 hrecords)
    simpa [hto] using hentry

/-- A name inside a zone has a walk of fewer than sixteen aliases. -/
theorem chases_of_find (hs : Compiled s) (kind : UInt16) {name : Str} {v : View} (hfind : s.find name = some v) :
    ∃ n answer fin, n < 16 ∧ Chases s kind n name answer fin := by
  by_cases hkind : v.lookup name kind = []
  · rcases lookup_cname_cases (hs.wellFormed hfind) name with ⟨hnone, -⟩ | ⟨rr, target, -, -, -, -, halias⟩
    · exact ⟨0, _, _, by omega, .lacks hfind hkind hnone⟩
    · exact chases_of_alias hs kind hfind halias
  · exact ⟨0, _, _, by omega, .has hfind hkind⟩

/-- The last record of a walk inside a zone: an alias that leaves the zones, or a record of the type. -/
theorem Chases.last {n : ℕ} {name : Str} {answer : List RR} {fin : End} (h : Chases s kind n name answer fin) :
    match fin with
    | .outside d => (s.find name = none ∧ answer = [] ∧ d = name) ∨ answer.getLast?.bind RR.cname? = some d
    | .records => ∃ rr, answer.getLast? = some rr ∧ rr.rrtype = kind
    | .denied _ => True := by
  induction h with
  | leaves nowhere => exact Or.inl ⟨nowhere, rfl, rfl⟩
  | @has name v owner some' =>
    refine ⟨(v.lookup name kind).getLast some', List.getLast?_eq_some_getLast some', ?_⟩
    exact rrtype_of_mem_lookup (List.getLast_mem some')
  | @follows n name v rr target answer fin owner none' one goes rest ih =>
    cases fin with
    | outside d =>
      refine Or.inr ?_
      rcases ih with ⟨-, rfl, rfl⟩ | hlast
      · simpa using goes
      · cases answer with
        | nil => cases hlast
        | cons y ys => rwa [List.getLast?_cons_cons]
    | records =>
      obtain ⟨x, hx, htype⟩ := ih
      cases answer with
      | nil => cases hx
      | cons y ys => exact ⟨x, by rwa [List.getLast?_cons_cons], htype⟩
    | denied v => trivial
  | lacks => trivial

/-- A walk that leaves the zones is outside them. -/
theorem Chases.left {n : ℕ} {name d : Str} {answer : List RR} (h : Chases s kind n name answer (.outside d)) :
    s.find d = none := by
  generalize hfin : End.outside d = fin at h
  induction h with
  | leaves nowhere =>
    cases hfin
    exact nowhere
  | has => cases hfin
  | follows _ _ _ _ _ ih => exact ih hfin
  | lacks => cases hfin

/-- A walk that is denied has collected aliases. -/
theorem Chases.denied_aliases {n : ℕ} {name : Str} {answer : List RR} {v : View} (h : Chases s kind n name answer (.denied v)) :
    ∀ rr ∈ answer, rr.rrtype = typeCNAME := by
  generalize hfin : End.denied v = fin at h
  induction h with
  | leaves => cases hfin
  | has => cases hfin
  | @follows n name w rr target answer fin owner none' one goes rest ih =>
    intro x hx
    rcases List.mem_cons.1 hx with rfl | hx
    · exact (RR.cname?_isSome_iff x).1 (by rw [goes]; rfl)
    · exact ih hfin x hx
  | lacks => simp

end

end Velora.Zones
