import Velora.Dns.Runs
import Velora.Zones.Chase

/-!
# Following local aliases

Two parts of the program follow aliases: the loop of `zones.Lookup` inside the zones, and the recursion of the resolver.
The resolver sees the target of an alias through rewrites, zones, cache and upstreams; the loop sees zones only. So the
answer for an alias is the alias followed by the answer for its target exactly if no rewrite of the target is passed over:
the alias is itself a rewrite, or the target is in no zone, or no rewrite covers it, or the rewrite says what the zone says
(`alias_answer_iff`).
-/

namespace Velora.Dns

open Velora.Lib Velora.Lib.Text Velora.Wire

section

variable {σ : Type} {lib : Miekg} {env : Env σ} {r : Resolver σ} {ctx : Ctx σ} {st : State σ}

/-! ### Levels -/

/-- One more level does not change an answer. -/
theorem resolveAt_succ (htr : st.trace = none) {n : ℕ} {q : Msg} {res : Result} {st' : State σ}
    (h : r.resolveAt lib env ctx n q st = (.ok res, st')) : r.resolveAt lib env ctx (n + 1) q st = (.ok res, st') := by
  induction n generalizing q res st' with
  | zero => cases h
  | succ n ih =>
    rw [Resolver.resolveAt_real htr] at h ⊢
    cases herr : ctx.err st.world.net with
    | some e =>
      rw [herr] at h
      cases h
    | none =>
      rw [herr] at h
      dsimp only at h ⊢
      by_cases hb : r.asksBlocked ctx q = true
      · rw [if_pos hb] at h ⊢
        exact h
      rw [if_neg hb] at h ⊢
      cases hl : r.localMatch q with
      | none =>
        rw [hl] at h
        dsimp only at h ⊢
        rw [Resolver.beyond_real htr] at h ⊢
        exact h
      | some l =>
        rw [hl] at h
        dsimp only at h ⊢
        cases hc : r.blockedAnswerName ctx l.msg with
        | some name =>
          rw [hc] at h
          exact h
        | none =>
          rw [hc] at h
          dsimp only at h ⊢
          cases hf : follows q l.msg with
          | none =>
            rw [hf] at h
            exact h
          | some target =>
            rw [hf] at h
            dsimp only at h ⊢
            rcases hrec : r.resolveAt lib env ctx n (retarget q target) st with ⟨e | tail, st₁⟩
            · rw [hrec] at h
              cases h
            · rw [hrec] at h
              rw [ih hrec]
              exact h

theorem resolveAt_mono (htr : st.trace = none) {n m : ℕ} (hle : n ≤ m) {q : Msg} {res : Result} {st' : State σ}
    (h : r.resolveAt lib env ctx n q st = (.ok res, st')) : r.resolveAt lib env ctx m q st = (.ok res, st') := by
  induction m, hle using Nat.le_induction with
  | base => exact h
  | succ m _ ih => exact resolveAt_succ htr ih

/-- The answer to a query does not depend on the levels that are left. -/
theorem resolveAt_unique (htr : st.trace = none) {n m : ℕ} {q : Msg} {res res' : Result} {st₁ st₂ : State σ}
    (h : r.resolveAt lib env ctx n q st = (.ok res, st₁)) (h' : r.resolveAt lib env ctx m q st = (.ok res', st₂)) :
    res = res' := by
  have h1 := resolveAt_mono htr (le_max_left n m) h
  have h2 := resolveAt_mono htr (le_max_right n m) h'
  rw [h1] at h2
  exact Except.ok.inj (Prod.mk.inj h2).1

/-- What a level that is not blocked makes of a local answer. -/
theorem resolveAt_local (htr : st.trace = none) {n : ℕ} {q : Msg} {res : Result} {st' : State σ} {l : LocalMatch}
    (h : r.resolveAt lib env ctx n q st = (.ok res, st')) (hs : res.source ≠ .blocked) (hl : r.localMatch q = some l) :
    follows q l.msg = none ∧ res.message = l.msg ∨
      ∃ k target tail, follows q l.msg = some target ∧ r.resolveAt lib env ctx k (retarget q target) st = (.ok tail, st') ∧
        tail.source ≠ .blocked ∧ res.message = join l.msg tail.message := by
  cases n with
  | zero => cases h
  | succ n =>
    rw [Resolver.resolveAt_real htr] at h
    split at h
    · cases h
    split at h
    · cases h
      exact absurd (r.blocked_source q) hs
    rw [hl] at h
    dsimp only at h
    split at h
    · cases h
      exact absurd (r.blocked_source q) hs
    split at h
    · rename_i hf
      cases h
      exact Or.inl ⟨hf, rfl⟩
    · rename_i target hf
      rcases hrec : r.resolveAt lib env ctx n (retarget q target) st with ⟨e | tail, st₁⟩
      · rw [hrec] at h
        cases h
      · rw [hrec] at h
        dsimp only at h
        split at h
        · cases h
          exact absurd (r.blocked_source q) hs
        · rename_i hblocked
          cases h
          exact Or.inr ⟨n, target, tail, hf, hrec, hblocked, rfl⟩

/-! ### Answers of the local layer -/

/-- A query the recursion follows aliases for. -/
structure Follows (q : Msg) : Prop where
  one : q.question.length = 1
  inet : q.question0.qclass = classINET
  rd : q.recursionDesired = true
  type : q.question0.qtype ≠ typeCNAME

theorem Follows.retarget {q : Msg} (h : Follows q) (name : Str) : Follows (retarget q name) := by
  refine ⟨?_, h.inet, h.rd, h.type⟩
  simp only [Dns.retarget, List.length_cons, List.length_tail, h.one]

theorem retarget_retarget (q : Msg) (a b : Str) : retarget (retarget q a) b = retarget q b := rfl

/-- The answer of the resolver for a name that a rewrite covers. -/
theorem rewrite_answer {loc : Rewrites.Local} (hloc : r.local' = some loc) (htr : st.trace = none) {n : ℕ} {q m : Msg}
    {rules : List Rewrites.Rule} (hq : Follows q) (hrw : loc.rewrites.bind (fun t => t.rewrite q) = some (m, rules))
    {res : Result} {st' : State σ} (h : r.resolveAt lib env ctx n q st = (.ok res, st')) (hs : res.source ≠ .blocked) :
    (∀ rr ∈ m.answer, rr.cname? = none) ∧ res.message.answer = m.answer ∨
      ∃ rr target k tail, m.answer = [rr] ∧ rr.cname? = some target ∧
        r.resolveAt lib env ctx k (retarget q target) st = (.ok tail, st') ∧ tail.source ≠ .blocked ∧
        res.message.answer = rr :: tail.message.answer := by
  obtain ⟨found, hfound, hmsg⟩ := Rewrites.Local.lookup_rewrite hrw
  have hl : r.localMatch q = some found := by
    rw [Resolver.localMatch, hloc]
    exact hfound
  obtain ⟨t, -, ht⟩ := Option.bind_eq_some_iff.1 hrw
  obtain ⟨-, -, -, hm⟩ := Rewrites.Table.rewrite_eq_some ht
  have hfollows : follows q m = m.answer.getLast?.bind RR.cname? := by
    rw [follows, if_pos ⟨hq.rd, hq.type, by rw [hm]; rfl, by rw [hm]; rfl⟩]
  have hshape : (∀ rr ∈ m.answer, rr.cname? = none) ∨ ∃ rr target, m.answer = [rr] ∧ rr.cname? = some target := by
    rw [hm]
    exact Rewrites.answers_cases _ _ _ (fun rr hrr => by cases hrr)
  rw [← hmsg] at hfollows hshape ⊢
  rcases hshape with hno | ⟨rr, target, hone, hto⟩
  · refine Or.inl ⟨hno, ?_⟩
    have hnone : follows q found.msg = none := by
      rw [hfollows, Option.bind_eq_none_iff]
      intro rr hlast
      exact hno rr (List.mem_of_getLast? hlast)
    rcases resolveAt_local htr h hs hl with ⟨-, hres⟩ | ⟨k, target, tail, hsome, -⟩
    · rw [hres]
    · rw [hnone] at hsome
      cases hsome
  · have hsome : follows q found.msg = some target := by rw [hfollows, hone]; exact hto
    rcases resolveAt_local htr h hs hl with ⟨hnone, -⟩ | ⟨k, target', tail, hsome', hrec, hblocked, hres⟩
    · rw [hnone] at hsome
      cases hsome
    · rw [hsome, Option.some.injEq] at hsome'
      subst hsome'
      refine Or.inr ⟨rr, target, k, tail, hone, hto, hrec, hblocked, ?_⟩
      rw [hres, join, hone]
      rfl

/-- A rewrite answers with records that are no aliases exactly if these are its own. -/
theorem rewrite_answer_iff {loc : Rewrites.Local} (hloc : r.local' = some loc) (htr : st.trace = none) {n : ℕ} {q m : Msg}
    {rules : List Rewrites.Rule} (hq : Follows q) (hrw : loc.rewrites.bind (fun t => t.rewrite q) = some (m, rules))
    {res : Result} {st' : State σ} (h : r.resolveAt lib env ctx n q st = (.ok res, st')) (hs : res.source ≠ .blocked)
    {records : List RR} (hrecords : ∀ rr ∈ records, rr.cname? = none) (P : Str → Prop) :
    records = res.message.answer ↔
      m.answer = records ∧ ∀ rr ∈ m.answer, ∀ target, rr.cname? = some target → P target := by
  rcases rewrite_answer hloc htr hq hrw h hs with ⟨hno, hres⟩ | ⟨rr, target, k, tail, hone, hto, -, -, hres⟩
  · rw [hres]
    constructor
    · intro heq
      refine ⟨heq.symm, fun rr hrr target hto => ?_⟩
      rw [hno rr hrr] at hto
      cases hto
    · exact fun heq => heq.1.symm
  · -- the rewrite is an alias, and the records are none
    have hne : rr ∉ records := by
      intro hmem
      rw [hrecords rr hmem] at hto
      cases hto
    refine iff_of_false (fun heq => hne ?_) (fun heq => hne ?_)
    · rw [heq, hres]
      exact List.mem_cons_self
    · rw [← heq.1, hone]
      exact List.mem_cons_self

variable (lib env r ctx st) in
/-- What comes after the records of a walk through the zones: the answer for the name outside them, or nothing. -/
def Beyond (q : Msg) : Zones.End → List RR → Prop
  | .outside d, tail => ∃ k res st', r.resolveAt lib env ctx k (retarget q d) st = (.ok res, st') ∧ tail = res.message.answer
  | _, tail => tail = []

theorem Beyond.unique (htr : st.trace = none) {q : Msg} {fin : Zones.End} {tail tail' : List RR}
    (h : Beyond lib env r ctx st q fin tail) (h' : Beyond lib env r ctx st q fin tail') : tail = tail' := by
  cases fin with
  | outside d =>
    obtain ⟨k, res, st₁, hres, rfl⟩ := h
    obtain ⟨k', res', st₂, hres', rfl⟩ := h'
    rw [resolveAt_unique htr hres hres']
  | records => exact h.trans h'.symm
  | denied v => exact h.trans h'.symm

/-- The answer of the resolver for a name in a zone that no rewrite covers: the records of the walk, and what comes after
them. -/
theorem zone_answer {loc : Rewrites.Local} {s : Zones.Snapshot} (hloc : r.local' = some loc) (hnext : loc.next = some s)
    (htr : st.trace = none) {k n : ℕ} {q : Msg} {v : Zones.View} {answer : List RR} {fin : Zones.End} (hq : Follows q)
    (hrw : loc.rewrites.bind (fun t => t.rewrite q) = none) (hfind : s.find (lower q.question0.name) = some v)
    (hwalk : Zones.Chases s q.question0.qtype n (lower q.question0.name) answer fin) (hn : n < 16)
    {res : Result} {st' : State σ} (h : r.resolveAt lib env ctx k q st = (.ok res, st')) (hs : res.source ≠ .blocked) :
    ∃ tail, Beyond lib env r ctx st q fin tail ∧ res.message.answer = answer ++ tail := by
  obtain ⟨found, hfound, hmsg⟩ := Rewrites.Local.lookup_zone ⟨hq.one, hq.inet⟩ hrw hnext hfind
  have hl : r.localMatch q = some found := by
    rw [Resolver.localMatch, hloc]
    exact hfound
  obtain ⟨rcode, -, hchase⟩ := Zones.chase_eq hwalk hn
    { setReply q with authoritative := true, recursionAvailable := true }
  rw [hchase] at hmsg
  have hanswer : found.msg.answer = answer := by
    rw [hmsg]
    cases fin <;> rfl
  have hlast := hwalk.last
  have hlocal := resolveAt_local htr h hs hl
  cases fin with
  | outside d =>
    -- the name is in a zone, so the walk has left it by an alias
    have hsome : follows q found.msg = some d := by
      rw [hmsg, follows, if_pos ⟨hq.rd, hq.type, rfl, rfl⟩]
      rcases hlast with ⟨nowhere, -⟩ | hlast
      · rw [nowhere] at hfind
        cases hfind
      · exact hlast
    rcases hlocal with ⟨hnone, -⟩ | ⟨k', target, tail, hsome', hrec, -, hres⟩
    · rw [hnone] at hsome
      cases hsome
    · rw [hsome, Option.some.injEq] at hsome'
      subst hsome'
      refine ⟨tail.message.answer, ⟨k', tail, st', hrec, rfl⟩, ?_⟩
      rw [hres, join, hanswer]
  | records =>
    obtain ⟨rr, hrr, htype⟩ := hlast
    have hnone : follows q found.msg = none := by
      rw [hmsg, follows, if_pos ⟨hq.rd, hq.type, rfl, rfl⟩]
      show answer.getLast?.bind RR.cname? = none
      rw [hrr, Option.bind_some]
      by_contra hsome
      exact hq.type (htype ▸ (RR.cname?_isSome_iff rr).1 (Option.isSome_iff_ne_none.2 hsome))
    rcases hlocal with ⟨-, hres⟩ | ⟨k', target, tail, hsome, -⟩
    · exact ⟨[], rfl, by rw [hres, hanswer, List.append_nil]⟩
    · rw [hnone] at hsome
      cases hsome
  | denied v =>
    have hnone : follows q found.msg = none := by
      rw [hmsg, follows, if_neg]
      rintro ⟨-, -, -, hns⟩
      cases hns
    rcases hlocal with ⟨-, hres⟩ | ⟨k', target, tail, hsome, -⟩
    · exact ⟨[], rfl, by rw [hres, hanswer, List.append_nil]⟩
    · rw [hnone] at hsome
      cases hsome

/-! ### Rewrites and zones that agree -/

/-- The records a zone has at a name itself: those of the type, or else its alias. -/
def zoneRecords (v : Zones.View) (name : Str) (kind : UInt16) : List RR :=
  if v.lookup name kind ≠ [] then v.lookup name kind else v.lookup name typeCNAME

/-- The rewrites say what the zones say about a name: no rewrite covers it, or no zone encloses it, or the rewrite gives
the records of the zone, and if these are an alias, the same goes for its target. The first argument bounds the aliases. -/
def Agrees (loc : Rewrites.Local) (s : Zones.Snapshot) (q : Msg) : ℕ → Str → Prop
  | 0, _ => True
  | n + 1, name => ∀ m rules v, loc.rewrites.bind (fun t => t.rewrite (retarget q name)) = some (m, rules) →
      s.find name = some v →
        m.answer = zoneRecords v name q.question0.qtype ∧
          ∀ rr ∈ m.answer, ∀ target, rr.cname? = some target → Agrees loc s q n target

section

variable {loc : Rewrites.Local} {s : Zones.Snapshot} {q : Msg} {n : ℕ} {name : Str}

theorem agrees_of_no_rewrite (h : loc.rewrites.bind (fun t => t.rewrite (retarget q name)) = none) :
    Agrees loc s q n name := by
  cases n with
  | zero => trivial
  | succ n =>
    intro m rules v hrw
    rw [h] at hrw
    cases hrw

theorem agrees_of_no_zone (h : s.find name = none) : Agrees loc s q n name := by
  cases n with
  | zero => trivial
  | succ n =>
    intro m rules v _ hfind
    rw [h] at hfind
    cases hfind

theorem agrees_succ_iff {m : Msg} {rules : List Rewrites.Rule} {v : Zones.View}
    (hrw : loc.rewrites.bind (fun t => t.rewrite (retarget q name)) = some (m, rules)) (hfind : s.find name = some v) :
    Agrees loc s q (n + 1) name ↔ m.answer = zoneRecords v name q.question0.qtype ∧
      ∀ rr ∈ m.answer, ∀ target, rr.cname? = some target → Agrees loc s q n target := by
  constructor
  · intro h
    exact h m rules v hrw hfind
  · intro h m' rules' v' hrw' hfind'
    rw [hrw, Option.some.injEq, Prod.mk.injEq] at hrw'
    rw [hfind, Option.some.injEq] at hfind'
    obtain ⟨rfl, rfl⟩ := hrw'
    subst hfind'
    exact h

end

/-- **The walk through the zones and the recursion of the resolver.** The records the walk collects from a name on, with
what comes after them, are the answer of the resolver for that name exactly if the rewrites agree with the zones on it. -/
theorem walk_answer_iff {loc : Rewrites.Local} {s : Zones.Snapshot} (hloc : r.local' = some loc)
    (hnext : loc.next = some s) (hs : Zones.Compiled s) (htr : st.trace = none) {q : Msg} (hq : Follows q) {n : ℕ}
    {name : Str} {answer tail : List RR} {fin : Zones.End} (hwalk : Zones.Chases s q.question0.qtype n name answer fin)
    (hn : n < 16) (hname : lower name = name) (htail : Beyond lib env r ctx st q fin tail) {k m : ℕ} (hm : n < m)
    {res : Result} {st' : State σ} (h : r.resolveAt lib env ctx k (retarget q name) st = (.ok res, st'))
    (hsrc : res.source ≠ .blocked) :
    answer ++ tail = res.message.answer ↔ Agrees loc s q m name := by
  -- a name in a zone that no rewrite covers
  have hzone : ∀ {n name answer v k res st'}, Zones.Chases s q.question0.qtype n name answer fin → n < 16 →
      lower name = name → s.find name = some v →
      loc.rewrites.bind (fun t => t.rewrite (retarget q name)) = none →
      r.resolveAt lib env ctx k (retarget q name) st = (.ok res, st') → res.source ≠ .blocked →
      answer ++ tail = res.message.answer := by
    intro n name answer v k res st' hwalk hn hname hfind hrw h hsrc
    have hlower : lower (retarget q name).question0.name = name := hname
    obtain ⟨tail', htail', hres⟩ := zone_answer hloc hnext htr (hq.retarget name) hrw (by rw [hlower]; exact hfind)
      (by rw [hlower]; exact hwalk) hn h hsrc
    have heq : tail = tail' := Beyond.unique htr htail htail'
    rw [hres, heq]
  induction hwalk generalizing k m res st' with
  | @leaves name nowhere =>
    obtain ⟨k', res', st₁, hres', rfl⟩ := htail
    rw [resolveAt_unique htr h hres', List.nil_append]
    exact iff_of_true rfl (agrees_of_no_zone nowhere)
  | @has name v owner some' =>
    cases hrw : loc.rewrites.bind (fun t => t.rewrite (retarget q name)) with
    | none => exact iff_of_true (hzone (.has owner some') hn hname owner hrw h hsrc) (agrees_of_no_rewrite hrw)
    | some p =>
      obtain ⟨m', rfl⟩ : ∃ m', m = m' + 1 := ⟨m - 1, by omega⟩
      rw [agrees_succ_iff hrw owner, zoneRecords, if_pos some', show tail = [] from htail, List.append_nil]
      refine rewrite_answer_iff hloc htr (hq.retarget name) hrw h hsrc (fun rr hrr => ?_) _
      -- a record of the queried type is no alias
      by_contra hsome
      have hcname := (RR.cname?_isSome_iff rr).1 (Option.isSome_iff_ne_none.2 hsome)
      exact hq.type ((Zones.rrtype_of_mem_lookup hrr).symm.trans hcname)
  | @follows n name v rr target answer fin owner none' one goes rest ih =>
    cases hrw : loc.rewrites.bind (fun t => t.rewrite (retarget q name)) with
    | none =>
      exact iff_of_true (hzone (.follows owner none' one goes rest) hn hname owner hrw h hsrc) (agrees_of_no_rewrite hrw)
    | some p =>
      obtain ⟨m', rfl⟩ : ∃ m', m = m' + 1 := ⟨m - 1, by omega⟩
      rw [agrees_succ_iff hrw owner, zoneRecords, if_neg (by simp [none']), one]
      rcases rewrite_answer hloc htr (hq.retarget name) hrw h hsrc with
        ⟨hno, hres⟩ | ⟨rr', target', k', t, hone, hto, hrec, hblocked, hres⟩
      · have hne : rr ∉ p.1.answer := by
          intro hmem
          rw [hno rr hmem] at goes
          cases goes
        refine iff_of_false (fun heq => hne ?_) (fun heq => hne ?_)
        · rw [← hres, ← heq]
          exact List.mem_cons_self
        · rw [heq.1]
          exact List.mem_cons_self
      · -- both are aliases: they are the same, and agree further on
        rw [hres, hone, List.cons_append]
        by_cases hrr : rr = rr'
        · subst hrr
          rw [goes, Option.some.injEq] at hto
          subst hto
          have hnormal := ((hs.wellFormed owner).normal_target one goes).lower_eq
          rw [retarget_retarget] at hrec
          have hrest := ih (by omega) hnormal htail (show n < m' by omega) hrec hblocked hzone
          simp [hrest, goes]
        · refine iff_of_false (fun heq => hrr (List.cons.inj heq).1) (fun heq => hrr ?_)
          exact (List.cons.inj heq.1).1.symm
  | @lacks name v owner none' noAlias =>
    cases hrw : loc.rewrites.bind (fun t => t.rewrite (retarget q name)) with
    | none => exact iff_of_true (hzone (.lacks owner none' noAlias) hn hname owner hrw h hsrc) (agrees_of_no_rewrite hrw)
    | some p =>
      obtain ⟨m', rfl⟩ : ∃ m', m = m' + 1 := ⟨m - 1, by omega⟩
      rw [agrees_succ_iff hrw owner, zoneRecords, if_neg (by simp [none']), noAlias, show tail = [] from htail]
      exact rewrite_answer_iff hloc htr (hq.retarget name) hrw h hsrc (fun rr hrr => by cases hrr) _

/-- The rewrites of a resolver say what its zones say about a name. -/
def Resolver.Agrees (r : Resolver σ) (q : Msg) (name : Str) : Prop :=
  ∀ loc s, r.local' = some loc → loc.next = some s → Dns.Agrees loc s q 16 name

theorem Resolver.agrees_iff {loc : Rewrites.Local} {s : Zones.Snapshot} (hloc : r.local' = some loc)
    (hnext : loc.next = some s) (q : Msg) (name : Str) : r.Agrees q name ↔ Dns.Agrees loc s q 16 name := by
  constructor
  · exact fun hall => hall loc s hloc hnext
  · intro hone loc' s' hloc' hnext'
    rw [hloc, Option.some.injEq] at hloc'
    subst hloc'
    rw [hnext, Option.some.injEq] at hnext'
    subst hnext'
    exact hone

/-- **When the answer for an alias is the alias and the answer for its target.** The first local record of the queried
name is an alias to `target`, and neither query is blocked or too deep: the answers fit together exactly if the alias is
a rewrite or the rewrites agree with the zones on the target. -/
theorem alias_answer_iff (lib : Miekg) (env : Env σ) (r : Resolver σ) (ctx : Ctx σ) (q : Msg) (st : State σ)
    (hzones : r.ZonesCompiled lib) (hrd : q.recursionDesired = true) (htype : q.question0.qtype ≠ typeCNAME)
    {found : LocalMatch} (hfound : r.localMatch q = some found) {rr : RR} {records : List RR} {target : Str}
    (hfirst : found.msg.answer = rr :: records) (hto : rr.cname? = some target) {res res' : Result}
    (h : (r.resolve lib env ctx q st).1 = .ok res) (hs : res.source ≠ .blocked)
    (h' : (r.resolve lib env ctx (retarget q target) st).1 = .ok res') (hs' : res'.source ≠ .blocked) :
    res.message.answer = rr :: res'.message.answer ↔ found.stage = .rewrite ∨ r.Agrees q target := by
  have hres : r.resolveAt lib env ctx 16 q { st with trace := none } = (.ok res, _) := Prod.ext h rfl
  have hres' : r.resolveAt lib env ctx 16 (retarget q target) { st with trace := none } = (.ok res', _) := Prod.ext h' rfl
  obtain ⟨loc, hloc, hl⟩ := Option.bind_eq_some_iff.1 hfound
  obtain ⟨⟨hone, hinet⟩, hcases⟩ := Rewrites.Local.lookup_cases hl
  have hq : Follows q := ⟨hone, hinet, hrd, htype⟩
  rcases hcases with ⟨hstage, t, rules, ht, hrw⟩ | ⟨hstage, hrw, s, v, hnext, hfind, hmsg⟩
  · -- a rewrite is followed by the recursion
    have hbind : loc.rewrites.bind (fun t => t.rewrite q) = some (found.msg, rules) := by rw [ht]; exact hrw
    refine iff_of_true ?_ (Or.inl hstage)
    rcases rewrite_answer hloc rfl hq hbind hres hs with ⟨hno, -⟩ | ⟨rr', target', k, tail, hsingle, hto', hrec, -, hans⟩
    · rw [hno rr (by rw [hfirst]; exact List.mem_cons_self)] at hto
      cases hto
    · rw [hfirst, List.cons.injEq] at hsingle
      obtain ⟨rfl, -⟩ := hsingle
      rw [hto, Option.some.injEq] at hto'
      subst hto'
      rw [hans, resolveAt_unique rfl hrec hres']
  · -- an alias of a zone is followed by the walk first
    obtain ⟨all, hall⟩ := hzones loc s hloc hnext
    have hcompiled := Zones.compile_ok hall
    obtain ⟨n, answer, fin, hn, hwalk⟩ := Zones.chases_of_find hcompiled q.question0.qtype hfind
    obtain ⟨rcode, -, hchase⟩ := Zones.chase_eq hwalk hn
      { setReply q with authoritative := true, recursionAvailable := true }
    have hanswer : answer = rr :: records := by
      rw [hmsg, hchase] at hfirst
      rw [← hfirst]
      cases fin <;> rfl
    obtain ⟨tail, htail, hans⟩ := zone_answer hloc hnext rfl hq hrw hfind hwalk hn hres hs
    rw [hstage, Resolver.agrees_iff hloc hnext, hans]
    cases hwalk with
    | leaves nowhere => cases hanswer
    | has owner some' =>
      have htype' := Zones.rrtype_of_mem_lookup (hanswer ▸ List.mem_cons_self : rr ∈ _)
      have hcname := (RR.cname?_isSome_iff rr).1 (by rw [hto]; rfl)
      exact absurd (htype'.symm.trans hcname) htype
    | lacks owner none' noAlias => cases hanswer
    | @follows n name v' rr' target' rest fin owner none' one goes hrest =>
      rw [List.cons.injEq] at hanswer
      obtain ⟨rfl, rfl⟩ := hanswer
      rw [goes, Option.some.injEq] at hto
      subst hto
      have hnormal := ((hcompiled.wellFormed owner).normal_target one goes).lower_eq
      have hiff := walk_answer_iff hloc hnext hcompiled rfl hq hrest (by omega) hnormal htail (by omega : n < 16) hres' hs'
      simp [hiff]

end

/-! ### Aliases of the home network -/

namespace Home

/-- The zone of the network: an alias, and the address of its target. -/
def zone : Zones.Zone where
  id := 1
  name := "home".toList
  primaryNS := []
  contact := []
  revision := 1
  records :=
    [⟨1, "files".toList, "CNAME".toList, 300, "nas.home.".toList, 0⟩,
      ⟨2, "nas".toList, "A".toList, 300, "192.0.2.1".toList, 0⟩]

/-- The alias as the zone serves it. -/
def files : RR := ⟨⟨"files.home.".toList, classINET, 300⟩, .cname "nas.home.".toList⟩

def nas (last : UInt8) : RR := ⟨⟨"nas.home.".toList, classINET, 300⟩, .a [192, 0, 2, last]⟩

/-- What the network answers to a query: the local answer, and the source and answer of the resolver. -/
def outcome (r : Resolver Unit) (q : Msg) : Option (List RR) × Option (Source × List RR) :=
  ((r.localMatch q).map (fun l => l.msg.answer),
    (r.resolve lib env ctx q start).1.toOption.map (fun res => (res.source, res.message.answer)))

theorem of_outcome {r : Resolver Unit} {q : Msg} {local' : Option (List RR)} {source : Source} {answer : List RR}
    (h : outcome r q = (local', some (source, answer))) :
    (r.localMatch q).map (fun l => l.msg.answer) = local' ∧
      ∃ res, (r.resolve lib env ctx q start).1 = .ok res ∧ res.source = source ∧ res.message.answer = answer := by
  rw [outcome, Prod.mk.injEq] at h
  obtain ⟨hlocal, hres⟩ := h
  obtain ⟨res, hok, hparts⟩ := Option.map_eq_some_iff.1 hres
  rw [Prod.mk.injEq] at hparts
  exact ⟨hlocal, res, Loops.eq_ok_of_toOption hok, hparts⟩

theorem zonesCompiled {rules : List Rewrites.Rule} {s : Zones.Snapshot} (h : Zones.compile lib [zone] = .ok s) :
    (resolver rules (some s)).ZonesCompiled lib := by
  rintro l s' ⟨⟩ ⟨⟩
  exact ⟨[zone], h⟩

end Home

open Home in
/-- Without a rewrite of the target the two answers fit together. -/
theorem alias_answer_files :
    ∃ s res res', Zones.compile Home.lib [zone] = .ok s ∧
      ((resolver [] (some s)).resolve Home.lib env Home.ctx (query "files.home." typeA) start).1 = .ok res ∧
      ((resolver [] (some s)).resolve Home.lib env Home.ctx (retarget (query "files.home." typeA) "nas.home.".toList)
        start).1 = .ok res' ∧
      res.message.answer = files :: res'.message.answer := by
  have hrun : (Zones.compile Home.lib [zone]).toOption.map (fun s =>
      (outcome (resolver [] (some s)) (query "files.home." typeA),
        outcome (resolver [] (some s)) (retarget (query "files.home." typeA) "nas.home.".toList))) =
      some ((some [files, nas 1], some (.local, [files, nas 1])), (some [nas 1], some (.local, [nas 1]))) := by
    decide +kernel
  obtain ⟨s, hs, hparts⟩ := Option.map_eq_some_iff.1 hrun
  have hcompile := Loops.eq_ok_of_toOption hs
  rw [Prod.mk.injEq] at hparts
  obtain ⟨hlocal, res, hres, hsource, -⟩ := of_outcome hparts.1
  obtain ⟨-, res', hres', hsource', -⟩ := of_outcome hparts.2
  obtain ⟨found, hfound, hanswer⟩ := Option.map_eq_some_iff.1 hlocal
  refine ⟨s, res, res', hcompile, hres, hres', ?_⟩
  refine (alias_answer_iff Home.lib env (resolver [] (some s)) Home.ctx (query "files.home." typeA) start
    (zonesCompiled hcompile) rfl (by decide) hfound hanswer rfl hres (by simp [hsource]) hres' (by simp [hsource'])).2 ?_
  refine Or.inr ?_
  rintro loc s' ⟨⟩ ⟨⟩
  exact agrees_of_no_rewrite rfl

open Home in
/-- The target has a rewrite, which the query for it sees and the query for the alias does not. -/
theorem alias_passes_over_rewrite :
    ∃ s found res res', Zones.compile Home.lib [zone] = .ok s ∧
      (resolver [rule "nas.home" "A" "192.0.2.9"] (some s)).localMatch (query "files.home." typeA) = some found ∧
      found.msg.answer.head? = some files ∧
      ((resolver [rule "nas.home" "A" "192.0.2.9"] (some s)).resolve Home.lib env Home.ctx (query "files.home." typeA)
        start).1 = .ok res ∧ res.source = .local ∧ res.message.answer = [files, nas 1] ∧
      ((resolver [rule "nas.home" "A" "192.0.2.9"] (some s)).resolve Home.lib env Home.ctx
        (retarget (query "files.home." typeA) "nas.home.".toList) start).1 = .ok res' ∧ res'.source = .local ∧
      res'.message.answer = [nas 9] ∧ res.message.answer ≠ files :: res'.message.answer := by
  have hrun : (Zones.compile Home.lib [zone]).toOption.map (fun s =>
      (outcome (resolver [rule "nas.home" "A" "192.0.2.9"] (some s)) (query "files.home." typeA),
        outcome (resolver [rule "nas.home" "A" "192.0.2.9"] (some s))
          (retarget (query "files.home." typeA) "nas.home.".toList))) =
      some ((some [files, nas 1], some (.local, [files, nas 1])), (some [nas 9], some (.local, [nas 9]))) := by
    decide +kernel
  obtain ⟨s, hs, hparts⟩ := Option.map_eq_some_iff.1 hrun
  rw [Prod.mk.injEq] at hparts
  obtain ⟨hlocal, res, hres, hsource, hanswer⟩ := of_outcome hparts.1
  obtain ⟨-, res', hres', hsource', hanswer'⟩ := of_outcome hparts.2
  obtain ⟨found, hfound, hrecords⟩ := Option.map_eq_some_iff.1 hlocal
  refine ⟨s, found, res, res', Loops.eq_ok_of_toOption hs, hfound, by rw [hrecords]; rfl, hres, hsource, hanswer, hres',
    hsource', hanswer', ?_⟩
  rw [hanswer, hanswer']
  decide

end Velora.Dns
