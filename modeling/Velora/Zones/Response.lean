import Velora.Zones.Chase

/-!
# What a lookup ends with

The loop of `Lookup` gives up after sixteen turns, with SERVFAIL. Zones that `compile` accepted never let it: the loop check
and the lookup walk the same aliases, from zone to zone, so every question gets an answer, NODATA or NXDOMAIN
(`lookup_response`).
-/

namespace Velora.Zones

open Velora.Lib Velora.Lib.Text Velora.Wire Velora.Dns

/-- What a zone answers to a question of a type. -/
inductive Response (s : Snapshot) (kind : UInt16) (m : Msg) : Prop
  /-- The last record is of the type, or an alias to a name outside the zones. -/
  | answer (rr : RR) (last : m.answer.getLast? = some rr)
      (ends : rr.rrtype = kind ∨ ∃ target, rr.cname? = some target ∧ s.find target = none)
      (code : m.rcode = rcodeSuccess) (authority : m.ns = [])
  /-- NODATA, at the end of the aliases. -/
  | nodata (v : View) (aliases : ∀ rr ∈ m.answer, rr.rrtype = typeCNAME) (code : m.rcode = rcodeSuccess)
      (authority : m.ns = [v.soa])
  /-- NXDOMAIN, at the end of the aliases. -/
  | nxdomain (v : View) (aliases : ∀ rr ∈ m.answer, rr.rrtype = typeCNAME) (code : m.rcode = rcodeNameError)
      (authority : m.ns = [v.soa])

section

variable {s : Snapshot} {kind : UInt16}

theorem Response.not_servfail {m : Msg} (h : Response s kind m) : m.rcode ≠ rcodeServerFailure := by
  intro hfail
  cases h with
  | answer rr last ends code authority =>
    rw [code] at hfail
    cases hfail
  | nodata v aliases code authority =>
    rw [code] at hfail
    cases hfail
  | nxdomain v aliases code authority =>
    rw [code] at hfail
    cases hfail

/-- The end of a walk that starts inside a zone, on a message without records. -/
theorem Chases.response {n : ℕ} {name : Str} {v : View} {answer : List RR} {fin : End}
    (h : Chases s kind n name answer fin) (hfind : s.find name = some v) {m : Msg} (hcode : m.rcode = rcodeSuccess)
    (hns : m.ns = []) {rcode : ℕ} (hr : rcode = rcodeSuccess ∨ rcode = rcodeNameError) :
    Response s kind (fin.close rcode { m with answer := answer }) := by
  have hlast := h.last
  cases fin with
  | outside d =>
    rcases hlast with ⟨hnone, -, -⟩ | hlast
    · rw [hfind] at hnone
      cases hnone
    · obtain ⟨rr, hrr, hto⟩ := Option.bind_eq_some_iff.1 hlast
      exact .answer rr hrr (Or.inr ⟨d, hto, h.left⟩) hcode hns
  | records =>
    obtain ⟨rr, hrr, htype⟩ := hlast
    exact .answer rr hrr (Or.inl htype) hcode hns
  | denied v =>
    rcases hr with rfl | rfl
    · exact .nodata v h.denied_aliases rfl rfl
    · exact .nxdomain v h.denied_aliases rfl rfl

end

/-- **A lookup never fails.** A question that is not for a zone is passed on; any other gets an answer, NODATA or NXDOMAIN, and
the loop does not run out of turns. -/
theorem lookup_response {lib : Miekg} {all : List Zone} {s : Snapshot} (h : compile lib all = .ok s) (q : Msg) :
    (s.lookup q = none ∧
        (q.question.length ≠ 1 ∨ q.question0.qclass ≠ classINET ∨ s.find (lower q.question0.name) = none)) ∨
      ∃ m, s.lookup q = some m ∧ m.rcode ≠ rcodeServerFailure ∧ Response s q.question0.qtype m := by
  by_cases hq : q.question.length = 1 ∧ q.question0.qclass = classINET
  · rw [Snapshot.lookup_eq hq]
    cases hfind : s.find (lower q.question0.name) with
    | none => exact Or.inl ⟨rfl, Or.inr (Or.inr rfl)⟩
    | some v =>
      obtain ⟨n, answer, fin, hn, hwalk⟩ := chases_of_find (compile_ok h) q.question0.qtype hfind
      obtain ⟨rcode, hrcode, hchase⟩ :=
        chase_eq hwalk hn { setReply q with authoritative := true, recursionAvailable := true }
      have hout : Response s q.question0.qtype (s.chase q.question0.qtype 16 (lower q.question0.name)
          { setReply q with authoritative := true, recursionAvailable := true }) := by
        rw [hchase]
        exact hwalk.response hfind rfl rfl hrcode
      exact Or.inr ⟨_, rfl, hout.not_servfail, hout⟩
  · refine Or.inl ⟨?_, by tauto⟩
    rw [Snapshot.lookup, if_pos (by tauto)]

/-! ### A zone inside a zone -/

namespace Nested

def lib : Miekg := .ideal []

/-- A zone with these records: names, types and values. -/
def zone (id : ℤ) (name : String) (records : List (String × String × String)) : Zone where
  id := id
  name := name.toList
  primaryNS := []
  contact := []
  revision := 1
  records := records.map (fun r => ⟨0, r.1.toList, r.2.1.toList, 300, r.2.2.toList, 0⟩)

/-- The zone `home` has an alias to a name of the zone `lab.home`. -/
def home : List Zone :=
  [zone 1 "home" [("www", "CNAME", "web.lab.home")], zone 2 "lab.home" [("web", "A", "192.0.2.1")]]

def query (name : String) : Msg := setQuestion 7 name.toList typeA

end Nested

theorem lookup_response_www :
    ∃ s, compile Nested.lib Nested.home = .ok s ∧ s.lookup (Nested.query "www.home.") ≠ none ∧
      ((s.lookup (Nested.query "www.home.") = none ∧ ((Nested.query "www.home.").question.length ≠ 1 ∨
          (Nested.query "www.home.").question0.qclass ≠ classINET ∨
          s.find (lower (Nested.query "www.home.").question0.name) = none)) ∨
        ∃ m, s.lookup (Nested.query "www.home.") = some m ∧ m.rcode ≠ rcodeServerFailure ∧ Response s typeA m) := by
  have hrun : (compile Nested.lib Nested.home).toOption.map (fun s => (s.lookup (Nested.query "www.home.")).isSome) =
      some true := by decide +kernel
  obtain ⟨s, hs, hsome⟩ := Option.map_eq_some_iff.1 hrun
  have hcompile := Loops.eq_ok_of_toOption hs
  exact ⟨s, hcompile, Option.isSome_iff_ne_none.1 hsome, lookup_response hcompile (Nested.query "www.home.")⟩

end Velora.Zones
