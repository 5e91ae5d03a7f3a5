import Velora.Dns.Forwarder
import Velora.Lib.Loops

/-!
# The grammar of an answer

`validateAnswerChain` walks the answer of an upstream once, with the name it is at, the names it has seen, the number of aliases
and whether the chain is over. `AnswersTo` says what it accepts without a walk: aliases, each owned by the target of the one before,
and then records of the last target (`validateAnswerChain_ok_iff`). Signatures may stand anywhere.
-/

namespace Velora.Dns

open Velora.Lib Velora.Lib.Text Velora.Lib.Loops Velora.Wire

/-! ### The grammar -/

/-- The target of an alias, in lower case. -/
def aliasTarget (rr : RR) : Str := lower (rr.cname?.getD [])

/-- The names a chain of aliases goes through, from a name on. -/
def through (name : Str) (aliases : List RR) : List Str := name :: aliases.map aliasTarget

/-- The records are these aliases and then these records of the name the aliases lead to; all names are in lower case. -/
structure AliasChain (name : Str) (records aliases terminals : List RR) : Prop where
  parts : records = aliases ++ terminals
  cnames : ∀ rr ∈ aliases, rr.rrtype = typeCNAME
  /-- the first alias is owned by the name, and each next one by the target of the one before -/
  owners : aliases.map (fun rr => lower rr.name) = (through name aliases).dropLast
  last : ∀ rr ∈ terminals, rr.rrtype ≠ typeCNAME ∧ (through name aliases).getLast? = some (lower rr.name)

/-- **The answer to a question**, without its signatures: a chain of at most sixteen aliases, and of at most one when aliases are
asked for, that comes to no name twice. -/
def AnswersTo (question : Question) (records : List RR) : Prop :=
  ∃ aliases terminals, AliasChain (lower question.name) records aliases terminals ∧ aliases.length ≤ 16 ∧
    (question.qtype = typeCNAME → aliases.length ≤ 1) ∧ (through (lower question.name) aliases).Nodup

/-! ### What a state of the walk accepts -/

/-- The rest of an answer that the walk accepts in a state. -/
def Rest (kind : UInt16) (c : ChainState) (records : List RR) : Prop :=
  ∃ aliases terminals, AliasChain c.current records aliases terminals ∧ c.aliases + aliases.length ≤ 16 ∧
    (c.terminal = true → aliases = []) ∧ (kind = typeCNAME → aliases.length ≤ 1) ∧ (aliases.map aliasTarget).Nodup ∧
      ∀ rr ∈ aliases, aliasTarget rr ∉ c.seen

section

variable {kind : UInt16} {c : ChainState} {rr : RR} {records aliases terminals : List RR}

theorem aliasTarget_eq {target : Str} (h : rr.cname? = some target) : aliasTarget rr = lower target := by
  rw [aliasTarget, h]
  rfl

theorem through_cons (name : Str) (rr : RR) (aliases : List RR) :
    through name (rr :: aliases) = name :: through (aliasTarget rr) aliases := rfl

/-- An alias leads a chain when it is owned by the name and the rest is a chain from its target. -/
theorem aliasChain_cons {name : Str} : AliasChain name (rr :: records) (rr :: aliases) terminals ↔
    rr.rrtype = typeCNAME ∧ lower rr.name = name ∧ AliasChain (aliasTarget rr) records aliases terminals := by
  have hdrop : (through name (rr :: aliases)).dropLast = name :: (through (aliasTarget rr) aliases).dropLast := rfl
  have hlast : (through name (rr :: aliases)).getLast? = (through (aliasTarget rr) aliases).getLast? := by
    rw [through_cons, through, List.getLast?_cons_cons]
  constructor
  · intro h
    have howners := h.owners
    rw [hdrop, List.map_cons, List.cons.injEq] at howners
    refine ⟨h.cnames rr List.mem_cons_self, howners.1, (List.cons.inj h.parts).2, ?_, howners.2, ?_⟩
    · exact fun x hx => h.cnames x (List.mem_cons_of_mem _ hx)
    · exact fun x hx => hlast ▸ h.last x hx
  · rintro ⟨htype, hname, h⟩
    refine ⟨by rw [h.parts, List.cons_append], List.forall_mem_cons.2 ⟨htype, h.cnames⟩, ?_, ?_⟩
    · rw [hdrop, List.map_cons, hname, h.owners]
    · exact fun x hx => hlast ▸ h.last x hx

/-- The first record is owned by the name the chain starts at. -/
theorem AliasChain.head {name : Str} (h : AliasChain name (rr :: records) aliases terminals) : lower rr.name = name := by
  cases aliases with
  | nil =>
    have hparts := h.parts
    rw [List.nil_append] at hparts
    have hlast := (h.last rr (by rw [← hparts]; exact List.mem_cons_self)).2
    simpa [through, eq_comm] using hlast
  | cons a as =>
    obtain ⟨rfl, -⟩ := List.cons.inj h.parts
    exact (aliasChain_cons.1 h).2.1

/-- A record that is no alias starts the last part of a chain. -/
theorem rest_cons_terminal (hname : lower rr.name = c.current) (hnone : rr.rrtype ≠ typeCNAME) :
    Rest kind c (rr :: records) ↔ Rest kind { c with terminal := true } records := by
  constructor
  · rintro ⟨aliases, terminals, hchain, hlen, -, hkind, hnodup, hseen⟩
    cases aliases with
    | cons a as =>
      obtain ⟨rfl, -⟩ := List.cons.inj hchain.parts
      exact absurd (hchain.cnames rr List.mem_cons_self) hnone
    | nil =>
      have hparts := hchain.parts
      rw [List.nil_append] at hparts
      subst hparts
      refine ⟨[], records, ⟨rfl, by simp, rfl, ?_⟩, hlen, fun _ => rfl, hkind, hnodup, hseen⟩
      exact fun x hx => hchain.last x (List.mem_cons_of_mem _ hx)
  · rintro ⟨aliases, terminals, hchain, hlen, hterminal, hkind, hnodup, hseen⟩
    obtain rfl := hterminal rfl
    have hparts := hchain.parts
    rw [List.nil_append] at hparts
    subst hparts
    refine ⟨[], rr :: records, ⟨rfl, by simp, rfl, fun x hx => ?_⟩, hlen, fun _ => rfl, hkind, hnodup, hseen⟩
    rcases List.mem_cons.1 hx with rfl | hx
    · exact ⟨hnone, by rw [hname]; rfl⟩
    · exact hchain.last x hx

/-- An alias goes on to its target, when the chain is not over, is short enough and has not seen the target. -/
theorem rest_cons_alias {target : Str} (hname : lower rr.name = c.current) (ht : rr.cname? = some target) :
    Rest kind c (rr :: records) ↔ c.terminal = false ∧ c.aliases + 1 ≤ 16 ∧ lower target ∉ c.seen ∧
      Rest kind ⟨lower target, lower target :: c.seen, c.aliases + 1, kind == typeCNAME⟩ records := by
  have htype : rr.rrtype = typeCNAME := (RR.cname?_isSome_iff rr).1 (by rw [ht]; rfl)
  have htarget := aliasTarget_eq ht
  constructor
  · rintro ⟨aliases, terminals, hchain, hlen, hterminal, hkind, hnodup, hseen⟩
    cases aliases with
    | nil =>
      have hparts := hchain.parts
      rw [List.nil_append] at hparts
      exact absurd htype (hchain.last rr (by rw [← hparts]; exact List.mem_cons_self)).1
    | cons a as =>
      obtain ⟨rfl, -⟩ := List.cons.inj hchain.parts
      have hnew := hseen rr List.mem_cons_self
      rw [List.map_cons, List.nodup_cons, htarget] at hnodup
      rw [htarget] at hnew
      rw [List.length_cons] at hlen
      refine ⟨by simpa using hterminal, by omega, hnew, as, terminals, htarget ▸ (aliasChain_cons.1 hchain).2.2, ?_, ?_, ?_,
        hnodup.2, ?_⟩
      · show c.aliases + 1 + as.length ≤ 16
        omega
      · intro hk
        have h1 := hkind (by simpa using hk)
        rw [List.length_cons] at h1
        exact List.eq_nil_of_length_eq_zero (by omega)
      · intro hk
        have h1 := hkind hk
        rw [List.length_cons] at h1
        omega
      · intro x hx hmem
        rcases List.mem_cons.1 hmem with heq | hmem
        · exact hnodup.1 (heq ▸ List.mem_map_of_mem hx)
        · exact hseen x (List.mem_cons_of_mem _ hx) hmem
  · rintro ⟨hopen, hcount, hnew, as, terminals, hchain, hlen, hterminal, hkind, hnodup, hseen⟩
    refine ⟨rr :: as, terminals, aliasChain_cons.2 ⟨htype, hname, htarget ▸ hchain⟩, ?_, ?_, ?_, ?_, ?_⟩
    · have hle : c.aliases + 1 + as.length ≤ 16 := hlen
      rw [List.length_cons]
      omega
    · rw [hopen]
      exact fun h => absurd h Bool.false_ne_true
    · intro hk
      rw [hterminal (by simpa using hk)]
      rfl
    · rw [List.map_cons, List.nodup_cons, htarget]
      refine ⟨fun hmem => ?_, hnodup⟩
      obtain ⟨x, hx, heq⟩ := List.mem_map.1 hmem
      exact hseen x hx (heq ▸ List.mem_cons_self)
    · refine List.forall_mem_cons.2 ⟨by rwa [htarget], fun x hx hmem => ?_⟩
      exact hseen x hx (List.mem_cons_of_mem _ hmem)

/-! ### The walk -/

/-- What the walk does at a record that is no signature. -/
theorem chainStep_eq_ok {c' : ChainState} (hsigned : rr.rrtype ≠ typeRRSIG) : chainStep kind c rr = .ok c' ↔
    lower rr.name = c.current ∧ (rr.cname? = none ∧ c' = { c with terminal := true } ∨
      ∃ target, rr.cname? = some target ∧ c.terminal = false ∧ c.aliases + 1 ≤ 16 ∧ lower target ∉ c.seen ∧
        c' = ⟨lower target, lower target :: c.seen, c.aliases + 1, kind == typeCNAME⟩) := by
  rw [chainStep, if_neg hsigned]
  by_cases hname : lower rr.name = c.current
  · rw [if_neg (not_not.2 hname)]
    cases ht : rr.cname? with
    | none =>
      constructor
      · intro h
        exact ⟨hname, Or.inl ⟨rfl, (Except.ok.inj h).symm⟩⟩
      · rintro ⟨-, ⟨-, rfl⟩ | ⟨t, ht', -⟩⟩
        · rfl
        · cases ht'
    | some target =>
      dsimp only
      split
      · rename_i hterminal
        refine iff_of_false (by simp) ?_
        rintro ⟨-, ⟨h, -⟩ | ⟨t, -, h, -⟩⟩
        · cases h
        · rw [hterminal] at h
          cases h
      · rename_i hopen
        split
        · rename_i hstop
          refine iff_of_false (by simp) ?_
          rintro ⟨-, ⟨h, -⟩ | ⟨t, ht', -, hle, hnew, -⟩⟩
          · cases h
          · cases ht'
            rcases hstop with h | h
            · omega
            · exact hnew (by simpa using h)
        · rename_i hgo
          rw [not_or] at hgo
          have hle : c.aliases + 1 ≤ 16 := by omega
          have hnew : lower target ∉ c.seen := by simpa using hgo.2
          have hfalse : c.terminal = false := by simpa using hopen
          constructor
          · intro h
            exact ⟨hname, Or.inr ⟨target, rfl, hfalse, hle, hnew, (Except.ok.inj h).symm⟩⟩
          · rintro ⟨-, ⟨h, -⟩ | ⟨t, ht', -, -, -, rfl⟩⟩
            · cases h
            · cases ht'
              rfl
  · rw [if_pos hname]
    exact iff_of_false (by simp) fun h => hname h.1

/-- **The walk accepts what is left of an answer exactly when the grammar does.** -/
theorem foldlM_chainStep_iff (hcount : c.aliases ≤ 16) (hsigned : ∀ rr ∈ records, rr.rrtype ≠ typeRRSIG) :
    (∃ c', records.foldlM (chainStep kind) c = .ok c') ↔ Rest kind c records := by
  induction records generalizing c with
  | nil =>
    refine ⟨fun _ => ⟨[], [], ⟨rfl, by simp, rfl, by simp⟩, hcount, fun _ => rfl, by simp, by simp, by simp⟩, fun _ => ⟨c, rfl⟩⟩
  | cons rr records ih =>
    have hrest : ∀ x ∈ records, x.rrtype ≠ typeRRSIG := fun x hx => hsigned x (List.mem_cons_of_mem _ hx)
    have hstep : (∃ c', (rr :: records).foldlM (chainStep kind) c = .ok c') ↔
        ∃ b, chainStep kind c rr = .ok b ∧ ∃ c', records.foldlM (chainStep kind) b = .ok c' := by
      simp only [List.foldlM_cons, bind_eq_ok]
      rw [exists_comm]
      simp only [exists_and_left]
    rw [hstep]
    constructor
    · rintro ⟨b, hb, hgo⟩
      obtain ⟨hname, ⟨hnone, rfl⟩ | ⟨target, ht, hopen, hle, hnew, rfl⟩⟩ := (chainStep_eq_ok (hsigned rr List.mem_cons_self)).1 hb
      · have htype : rr.rrtype ≠ typeCNAME := by
          rw [Ne, ← RR.cname?_isSome_iff, hnone]
          exact Bool.false_ne_true
        exact (rest_cons_terminal hname htype).2 ((ih (c := { c with terminal := true }) hcount hrest).1 hgo)
      · exact (rest_cons_alias hname ht).2 ⟨hopen, hle, hnew, (ih hle hrest).1 hgo⟩
    · intro h
      have hname : lower rr.name = c.current := by
        obtain ⟨aliases, terminals, hchain, -⟩ := h
        exact hchain.head
      cases ht : rr.cname? with
      | none =>
        have htype : rr.rrtype ≠ typeCNAME := by
          rw [Ne, ← RR.cname?_isSome_iff, ht]
          exact Bool.false_ne_true
        refine ⟨_, (chainStep_eq_ok (hsigned rr List.mem_cons_self)).2 ⟨hname, Or.inl ⟨ht, rfl⟩⟩, ?_⟩
        exact (ih (c := { c with terminal := true }) hcount hrest).2 ((rest_cons_terminal hname htype).1 h)
      | some target =>
        obtain ⟨hopen, hle, hnew, hgo⟩ := (rest_cons_alias hname ht).1 h
        refine ⟨_, (chainStep_eq_ok (hsigned rr List.mem_cons_self)).2 ⟨hname, Or.inr ⟨target, ht, hopen, hle, hnew, rfl⟩⟩, ?_⟩
        exact (ih hle hrest).2 hgo

end

/-- **`validateAnswerChain` accepts exactly the answers of the grammar.** -/
theorem validateAnswerChain_ok_iff (q response : Msg) (hq : q.question.length = 1) :
    validateAnswerChain q response = .ok () ↔
      AnswersTo q.question0 (response.answer.filter (fun rr => rr.rrtype ≠ typeRRSIG)) := by
  have hwalk : validateAnswerChain q response = .ok () ↔ ∃ c', response.answer.foldlM (chainStep q.question0.qtype)
      { current := lower q.question0.name, seen := [lower q.question0.name] } = .ok c' := by
    rw [validateAnswerChain, if_neg (not_not.2 hq)]
    simp only [bind_eq_ok, pure_eq_ok, and_true]
  have hskip : ∀ (b : ChainState), ∀ rr ∈ response.answer, ¬ rr.rrtype ≠ typeRRSIG →
      chainStep q.question0.qtype b rr = .ok b := by
    intro b rr _ hrr
    rw [chainStep, if_pos (not_not.1 hrr)]
  rw [hwalk, foldlM_filter hskip, foldlM_chainStep_iff (Nat.zero_le _) (by simp)]
  refine exists_congr fun aliases => exists_congr fun terminals => and_congr_right fun hchain => ?_
  simp only [Nat.zero_add, through, List.nodup_cons, List.mem_map, List.mem_singleton, Bool.false_eq_true, false_implies,
    true_and, not_exists, not_and]
  tauto

namespace Sample

/-- An alias and the address of its target, each with a signature, for names in other cases than the question's. -/
def chainReply : Msg :=
  { setReply (setQuestion 7 "Alias.test.".toList typeA) with
    answer := [⟨⟨"alias.TEST.".toList, classINET, 60⟩, .cname "target.test.".toList⟩,
      ⟨⟨"alias.test.".toList, classINET, 60⟩, .rrsig ⟨typeCNAME, 8, 2, 60, 1, 0, 7, "test.".toList, []⟩⟩,
      ⟨⟨"Target.test.".toList, classINET, 60⟩, .a [192, 0, 2, 1]⟩] }

end Sample

theorem answers_chainReply : AnswersTo ⟨"Alias.test.".toList, typeA, classINET⟩
    (Sample.chainReply.answer.filter (fun rr => rr.rrtype ≠ typeRRSIG)) :=
  (validateAnswerChain_ok_iff (setQuestion 7 "Alias.test.".toList typeA) Sample.chainReply rfl).1 (by decide)

end Velora.Dns
