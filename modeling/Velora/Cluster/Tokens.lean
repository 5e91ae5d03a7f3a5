import Velora.Cluster.Members

/-!
# What a join token is good for

In every run each token that is issued admits one member at most (`tokens_once`). The time at which it is redeemed is
compared with its expiry as texts, so it is redeemed in time when the fraction of the second of its expiry does not start
that of the time (`tokens_safe`), and can be redeemed late when it does (`late_join`).
-/

namespace Velora.Cluster.Members

open Velora.Lib Velora.Lib.Text

/-! ### What a step does -/

/-- A step that leaves the histories as they are and adds no row. -/
structure Quiet (s s' : Node) : Prop where
  tokens : s'.tokens.Sublist s.tokens
  members : s'.members.length ≤ s.members.length
  issued : s'.issued = s.issued
  pending : s'.pending = s.pending
  admitted : s'.admitted = s.admitted

theorem Quiet.refl (s : Node) : Quiet s s := ⟨List.Sublist.refl _, le_refl _, rfl, rfl, rfl⟩

/-- What a statement leaves: what it found, or what it does when it is done. -/
theorem answer_left {α : Type} {x : Outcome} {fails : Err → α} {s s' : Node} {does : α × Node} {a : α}
    (h : x.answer fails s does = (a, s')) : s' = s ∨ s' = does.2 := by
  cases x with
  | done => exact .inr (congrArg Prod.snd h).symm
  | failed text => exact .inl (congrArg Prod.snd h).symm
  | lost text => exact .inr (congrArg Prod.snd h).symm

theorem answer_quiet {α : Type} {x : Outcome} {fails : Err → α} {s s' : Node} {does : α × Node} {a : α}
    (hdoes : Quiet s does.2) (h : x.answer fails s does = (a, s')) : Quiet s s' := by
  rcases answer_left h with rfl | rfl
  · exact .refl s'
  · exact hdoes

/-- The operations that neither issue nor redeem a token and save no member. -/
def Op.quiet : Op → Bool
  | .saveMember _ _ _ => false
  | .insertToken _ _ _ => false
  | .consume _ _ _ => false
  | _ => true

theorem act_quiet {i : ℕ} {op : Op} {x : Outside} {s s' : Node} {a : Ans op} (hop : op.quiet = true)
    (h : act i op x s = some (a, s')) : Quiet s s' := by
  cases op with
  | saveMember row token redeemed => cases hop
  | insertToken token hash expires => cases hop
  | consume token hash now => cases hop
  | current => cases h; exact .refl s
  | randomToken before => cases h; exact .refl s
  | now => cases h; exact .refl s
  | listMembers => exact answer_quiet (.refl s) (Option.some.inj h)
  | member nodeID => exact answer_quiet (.refl s) (Option.some.inj h)
  | saveState next =>
    rw [act, Option.some.injEq] at h
    split at h
    · cases h
      exact ⟨List.Sublist.refl _, le_refl _, rfl, rfl, rfl⟩
    · cases h
      exact .refl s
    · cases h
      exact .refl s
  | deleteMember nodeID =>
    exact answer_quiet ⟨List.Sublist.refl _, List.length_filter_le _ _, rfl, rfl, rfl⟩ (Option.some.inj h)
  | deleteMembers => exact answer_quiet ⟨List.nil_sublist _, Nat.zero_le _, rfl, rfl, rfl⟩ (Option.some.inj h)
  | deleteExpired => exact answer_quiet ⟨List.filter_sublist, le_refl _, rfl, rfl, rfl⟩ (Option.some.inj h)

/-- A token is stored, or nothing has changed. -/
theorem act_insertToken {i : ℕ} {token hash : Str} {expires : ℕ} {x : Outside} {s s' : Node} {a : Option Err}
    (h : act i (.insertToken token hash expires) x s = some (a, s')) :
    Quiet s s' ∨ (∀ row ∈ s.tokens, row.hash ≠ hash) ∧
      s' = { s with tokens := ⟨hash, expires⟩ :: s.tokens, issued := ⟨token, expires⟩ :: s.issued } := by
  rcases answer_left (Option.some.inj h) with rfl | hs
  · exact .inl (.refl s')
  · split at hs
    · exact .inl (hs ▸ .refl s)
    · rename_i hnew
      refine .inr ⟨fun row hrow heq => hnew ?_, hs⟩
      exact List.any_eq_true.2 ⟨row, hrow, decide_eq_true heq⟩

/-- A member is saved, or nothing has changed. -/
theorem act_saveMember {i : ℕ} {row : MemberRow} {token : Str} {redeemed : ℕ} {x : Outside} {s s' : Node} {a : Option Err}
    (h : act i (.saveMember row token redeemed) x s = some (a, s')) :
    Quiet s s' ∨ s' = { s with
      members := row :: s.members
      pending := s.pending.filter (fun e => e.thread ≠ i)
      admitted := ⟨i, token, redeemed⟩ :: s.admitted } := by
  rcases answer_left (Option.some.inj h) with rfl | hs
  · exact .inl (.refl s')
  · split at hs
    · exact .inl (hs ▸ .refl s)
    · exact .inr hs

/-- A token is redeemed, or the answer is not that it is valid. -/
theorem act_consume {i : ℕ} {token hash : Str} {now : ℕ} {x : Outside} {s s' : Node} {a : Except Err Bool}
    (h : act i (.consume token hash now) x s = some (a, s')) :
    (Quiet s s' ∧ a ≠ .ok true) ∨ a = .ok true ∧ (s.tokens.countP (TokenRow.redeems hash now) = 1 ∧
      s' = { s with
        tokens := s.tokens.filter (fun row => !row.redeems hash now)
        pending := ⟨i, token, now⟩ :: s.pending }) := by
  have hleft : Quiet s { s with tokens := s.tokens.filter (fun row => !row.redeems hash now) } :=
    ⟨List.filter_sublist, le_refl _, rfl, rfl, rfl⟩
  simp only [act, Option.some.injEq] at h
  split at h
  · split at h
    · rename_i hvalid
      cases h
      exact .inr ⟨by simp [hvalid], hvalid, rfl⟩
    · rename_i hvalid
      cases h
      exact .inl ⟨hleft, by simpa using hvalid⟩
  · cases h
    exact .inl ⟨.refl s, by simp⟩
  · cases h
    exact .inl ⟨hleft, by simp⟩

/-! ### The order of the steps of a call -/

/-- A call has redeemed no token, or one that it has not used yet. -/
inductive Phase where
  | free
  | redeemed (token : Str) (time : ℕ)

section

variable (hashSecret : Str → Str) (version : Str)

/-- A call redeems one token at most, stores and looks for tokens by their hashes, and saves a member with the token it has
redeemed as its last step. -/
def order : (op : Op) → (Ans op → Phase → Prop) → Phase → Prop
  | .consume token hash now, Q, ph =>
    ph = .free ∧ hash = hashSecret token ∧ Q (.ok true) (.redeemed token now) ∧ ∀ a, a ≠ .ok true → Q a .free
  | .saveMember _ token time, Q, ph => ph = .redeemed token time ∧ ∀ a ph', Q a ph'
  | .insertToken token hash _, Q, ph => hash = hashSecret token ∧ ∀ a, Q a ph
  | _, Q, ph => ∀ a, Q a ph

variable {hashSecret version}

/-- Any result in any phase. -/
abbrev anything : Except Err Result → Phase → Prop := fun _ _ => True

theorem ask_obeys {op : Op} {k : Ans op → Script} {ph : Phase} :
    (ask op >>= k).obeys (order hashSecret) anything ph ↔
      order hashSecret op (fun a ph' => (k a).obeys (order hashSecret) anything ph') ph := Iff.rfl

theorem issue_obeys : (issueJoinToken hashSecret).obeys (order hashSecret) anything .free := by
  rw [issueJoinToken, ask_obeys]
  intro state
  split
  · trivial
  rw [ask_obeys]
  intro members
  cases members with
  | error e => trivial
  | ok members =>
    dsimp only
    split
    · trivial
    rw [ask_obeys]
    intro token
    cases token with
    | error e => trivial
    | ok token =>
      dsimp only
      rw [ask_obeys]
      intro now
      rw [ask_obeys]
      intro deleted
      cases deleted with
      | some e => trivial
      | none =>
        dsimp only
        rw [ask_obeys]
        refine ⟨rfl, fun saved => ?_⟩
        cases saved <;> trivial

theorem admit_obeys (state : State) (request : JoinRequest) (address name : Str) (now : ℕ) :
    (admitJoin hashSecret version state request address name now).obeys (order hashSecret) anything
      (.redeemed request.token now) := by
  rw [admitJoin, ask_obeys]
  intro known
  cases known with
  | some row => trivial
  | none =>
    dsimp only
    rw [ask_obeys]
    intro secret
    cases secret with
    | error e => trivial
    | ok secret =>
      dsimp only
      rw [ask_obeys]
      intro joined
      rw [ask_obeys]
      refine ⟨rfl, fun saved ph => ?_⟩
      cases saved <;> trivial

theorem join_obeys (request : JoinRequest) (address : Str) :
    (acceptJoin hashSecret version request address).obeys (order hashSecret) anything .free := by
  rw [acceptJoin, ask_obeys]
  intro state
  split
  · trivial
  split
  · trivial
  cases validName request.name with
  | error e => trivial
  | ok name =>
    dsimp only
    split
    · trivial
    split
    · trivial
    rw [ask_obeys]
    intro now
    rw [ask_obeys]
    refine ⟨rfl, rfl, admit_obeys state request address name now, fun valid hvalid => ?_⟩
    match valid, hvalid with
    | .error e, _ => trivial
    | .ok false, _ => trivial

theorem remove_obeys (nodeID : Str) : (removeMember nodeID).obeys (order hashSecret) anything .free := by
  rw [removeMember, ask_obeys]
  intro state
  split
  · trivial
  split
  · trivial
  rw [ask_obeys]
  intro known
  cases known with
  | none => trivial
  | some row => exact fun deleted => trivial

theorem depart_obeys (header : Str) : (departMember hashSecret header).obeys (order hashSecret) anything .free := by
  rw [departMember, ask_obeys]
  intro state
  split
  · trivial
  cases (cutPrefix "VeloraNode ".toList header).bind cutColon with
  | none => trivial
  | some parts =>
    dsimp only
    rw [ask_obeys]
    intro known
    cases known with
    | none => trivial
    | some row =>
      dsimp only
      split
      · trivial
      · exact fun deleted => trivial

theorem dissolve_obeys : dissolve.obeys (order hashSecret) anything .free := by
  rw [dissolve, ask_obeys]
  intro state
  split
  · trivial
  rw [ask_obeys]
  intro deleted
  cases deleted with
  | some e => trivial
  | none => exact fun saved => trivial

theorem body_obeys (c : Call) : (body hashSecret version c).obeys (order hashSecret) anything .free := by
  cases c with
  | issue => exact issue_obeys
  | join request address => exact join_obeys request address
  | remove nodeID => exact remove_obeys nodeID
  | depart header => exact depart_obeys header
  | dissolve => exact dissolve_obeys
  | save next => exact fun saved => trivial

end

/-! ### The accounts -/

/-- What the phase of a call says about the tokens that are redeemed and not used. -/
def Held (s : Node) (i : ℕ) : Phase → Prop
  | .free => ∀ e ∈ s.pending, e.thread ≠ i
  | .redeemed token time => s.pending.filter (fun e => e.thread = i) = [⟨i, token, time⟩]

section

variable (hashSecret : Str → Str) (version : Str) (fine : ℕ → ℕ → Prop)

/-- Every token that is stored or was redeemed was issued, no more often than that, and redeemed at a time that was fine
for its expiry. -/
structure Accounted (s : Node) : Prop where
  stored : ∀ row ∈ s.tokens, ∃ issue ∈ s.issued, hashSecret issue.token = row.hash ∧ issue.expires = row.expires
  counted : ∀ token, s.admitted.countP (fun e => e.token = token) + s.pending.countP (fun e => e.token = token) +
    s.tokens.countP (fun row => row.hash = hashSecret token) ≤ s.issued.countP (fun issue => issue.token = token)
  backed : ∀ e, e ∈ s.pending ∨ e ∈ s.admitted → ∃ issue ∈ s.issued, issue.token = e.token ∧ fine issue.expires e.time

/-- What a call holds. -/
def Holding (s : Node) (i : ℕ) (p : Script) : Prop :=
  ∃ ph, p.obeys (order hashSecret) anything ph ∧ Held s i ph

/-- The turn redeems no token at a time that is not fine. -/
def Redeems (w : System) : Turn Call Outside → Prop
  | .start _ => True
  | .turn i _ => ∀ c token hash now k, w.threads[i]? = some (c, .call (.consume token hash now) k) →
    ∀ row ∈ w.shared.tokens, row.redeems hash now = true → fine row.expires now

variable {hashSecret version fine}

theorem Accounted.quiet {s s' : Node} (h : Accounted hashSecret fine s) (hq : Quiet s s') :
    Accounted hashSecret fine s' := by
  refine ⟨fun row hrow => ?_, fun token => ?_, fun e he => ?_⟩
  · rw [hq.issued]
    exact h.stored row (hq.tokens.subset hrow)
  · have hle : s'.tokens.countP (fun row => row.hash = hashSecret token) ≤
        s.tokens.countP (fun row => row.hash = hashSecret token) := hq.tokens.countP_le
    have hold := h.counted token
    rw [hq.issued, hq.pending, hq.admitted]
    omega
  · rw [hq.pending, hq.admitted] at he
    rw [hq.issued]
    exact h.backed e he

theorem held_congr {s s' : Node} (h : s'.pending = s.pending) {i : ℕ} {ph : Phase} (hh : Held s i ph) : Held s' i ph := by
  cases ph with
  | free =>
    intro e he
    rw [h] at he
    exact hh e he
  | redeemed token time =>
    rw [Held, h]
    exact hh

/-- A token that is issued is stored under its own hash. -/
theorem Accounted.insertToken (hinj : Function.Injective hashSecret) {s : Node} (h : Accounted hashSecret fine s)
    (token : Str) (expires : ℕ) :
    Accounted hashSecret fine
      { s with tokens := ⟨hashSecret token, expires⟩ :: s.tokens, issued := ⟨token, expires⟩ :: s.issued } := by
  refine ⟨fun row hrow => ?_, fun other => ?_, fun e he => ?_⟩
  · rcases List.mem_cons.1 hrow with rfl | hrow
    · exact ⟨⟨token, expires⟩, List.mem_cons_self, rfl, rfl⟩
    · obtain ⟨issue, hissue, heq⟩ := h.stored row hrow
      exact ⟨issue, List.mem_cons_of_mem _ hissue, heq⟩
  · have hold := h.counted other
    rw [List.countP_cons, List.countP_cons]
    -- the two counts go up together because the hash is injective
    by_cases heq : token = other
    · simp only [heq, decide_true, if_true]
      omega
    · have hne : hashSecret token ≠ hashSecret other := fun hh => heq (hinj hh)
      simp only [heq, hne, decide_false, Bool.false_eq_true, if_false]
      omega
  · obtain ⟨issue, hissue, heq⟩ := h.backed e he
    exact ⟨issue, List.mem_cons_of_mem _ hissue, heq⟩

/-- A token that is redeemed is not stored any more. -/
theorem Accounted.consume (hinj : Function.Injective hashSecret) {s : Node} (h : Accounted hashSecret fine s) (i : ℕ)
    {token : Str} {now : ℕ} (hone : s.tokens.countP (TokenRow.redeems (hashSecret token) now) = 1)
    (hfine : ∀ row ∈ s.tokens, row.redeems (hashSecret token) now = true → fine row.expires now) :
    Accounted hashSecret fine
      { s with
        tokens := s.tokens.filter (fun row => !row.redeems (hashSecret token) now)
        pending := ⟨i, token, now⟩ :: s.pending } := by
  refine ⟨fun row hrow => h.stored row (List.mem_filter.1 hrow).1, fun other => ?_, fun e he => ?_⟩
  · have hold := h.counted other
    have hsplit := List.countP_eq_countP_filter_add s.tokens (fun row => row.hash = hashSecret other)
      (TokenRow.redeems (hashSecret token) now)
    rw [List.countP_cons]
    by_cases heq : token = other
    · -- the row that is deleted is one of those that were counted
      have hrow : (s.tokens.filter (TokenRow.redeems (hashSecret token) now)).countP
          (fun row => row.hash = hashSecret other) = 1 := by
        rw [List.countP_filter, ← hone]
        refine List.countP_congr fun row _ => ?_
        simp only [TokenRow.redeems, ← heq, Bool.and_eq_true, decide_eq_true_eq]
        tauto
      simp only [heq, decide_true, if_true]
      rw [heq] at hsplit hrow
      omega
    · simp only [heq, decide_false, Bool.false_eq_true, if_false]
      omega
  · rcases he with he | he
    · rcases List.mem_cons.1 he with rfl | he
      · have hpos : 0 < s.tokens.countP (TokenRow.redeems (hashSecret token) now) := by omega
        obtain ⟨row, hrow, hredeems⟩ := List.countP_pos_iff.1 hpos
        obtain ⟨issue, hissue, hhash, hexp⟩ := h.stored row hrow
        have hh : row.hash = hashSecret token := by
          simp only [TokenRow.redeems, Bool.and_eq_true, decide_eq_true_eq] at hredeems
          exact hredeems.1
        refine ⟨issue, hissue, hinj (hhash.trans hh), ?_⟩
        rw [hexp]
        exact hfine row hrow hredeems
      · exact h.backed e (.inl he)
    · exact h.backed e (.inr he)

/-- A member that is saved uses up the token its call has redeemed. -/
theorem Accounted.saveMember {s : Node} (h : Accounted hashSecret fine s) {i : ℕ} (row : MemberRow) {token : Str} {time : ℕ}
    (hheld : Held s i (.redeemed token time)) :
    Accounted hashSecret fine
      { s with
        members := row :: s.members
        pending := s.pending.filter (fun e => e.thread ≠ i)
        admitted := ⟨i, token, time⟩ :: s.admitted } := by
  have hheld : s.pending.filter (fun e => e.thread = i) = [⟨i, token, time⟩] := hheld
  have hmem : (⟨i, token, time⟩ : Redeemed) ∈ s.pending :=
    (List.mem_filter.1 (hheld ▸ List.mem_singleton_self _ : _ ∈ s.pending.filter (fun e => e.thread = i))).1
  refine ⟨h.stored, fun other => ?_, fun e he => ?_⟩
  · have hold := h.counted other
    have hsplit := List.countP_eq_countP_filter_add s.pending (fun e => e.token = other) (fun e => e.thread = i)
    rw [hheld, List.countP_singleton] at hsplit
    have hrest : s.pending.filter (fun e => !decide (e.thread = i)) = s.pending.filter (fun e => e.thread ≠ i) := by
      simp
    rw [hrest] at hsplit
    rw [List.countP_cons]
    dsimp only at hsplit ⊢
    omega
  · rcases he with he | he
    · exact h.backed e (.inl (List.mem_filter.1 he).1)
    · rcases List.mem_cons.1 he with rfl | he
      · exact h.backed _ (.inl hmem)
      · exact h.backed e (.inr he)

/-- Another call still holds what it held. -/
theorem held_cons {s : Node} {i j : ℕ} {ph : Phase} (hji : j ≠ i) (token : Str) (now : ℕ) (tokens : List TokenRow)
    (h : Held s j ph) : Held { s with tokens := tokens, pending := ⟨i, token, now⟩ :: s.pending } j ph := by
  cases ph with
  | free =>
    intro e he
    rcases List.mem_cons.1 he with rfl | he
    · exact Ne.symm hji
    · exact h e he
  | redeemed token' time =>
    rw [Held, List.filter_cons_of_neg (by simpa using Ne.symm hji)]
    exact h

theorem held_filter {s : Node} {i j : ℕ} {ph : Phase} (hji : j ≠ i) (members : List MemberRow) (admitted : List Redeemed)
    (h : Held s j ph) :
    Held { s with members := members, pending := s.pending.filter (fun e => e.thread ≠ i), admitted := admitted } j ph := by
  cases ph with
  | free => exact fun e he => h e (List.mem_filter.1 he).1
  | redeemed token time =>
    rw [Held, List.filter_filter, ← h]
    refine List.filter_congr fun e _ => ?_
    by_cases he : e.thread = j
    · simp [he, hji]
    · simp [he]

/-- One step of a call, for what the calls hold. -/
theorem turn_holding {i : ℕ} {op : Op} {x : Outside} {k : Ans op → Script} {s s' : Node} {a : Ans op}
    (hT : Holding hashSecret s i (.call op k)) (hact : act i op x s = some (a, s')) :
    Holding hashSecret s' i (k a) ∧ ∀ j q, j ≠ i → Holding hashSecret s j q → Holding hashSecret s' j q := by
  obtain ⟨ph, hobeys, hheld⟩ := hT
  have quiet : Quiet s s' → (k a).obeys (order hashSecret) anything ph →
      Holding hashSecret s' i (k a) ∧ ∀ j q, j ≠ i → Holding hashSecret s j q → Holding hashSecret s' j q := by
    intro hq hk
    refine ⟨⟨ph, hk, held_congr hq.pending hheld⟩, fun j q _ hj => ?_⟩
    obtain ⟨ph', hq', hheld'⟩ := hj
    exact ⟨ph', hq', held_congr hq.pending hheld'⟩
  cases op with
  | consume token hash now =>
    obtain ⟨rfl, rfl, hok, hrest⟩ := hobeys
    rcases act_consume hact with ⟨hq, hne⟩ | ⟨rfl, hone, rfl⟩
    · exact quiet hq (hrest a hne)
    · refine ⟨⟨_, hok, ?_⟩, fun j q hji hj => ?_⟩
      · rw [Held, List.filter_cons_of_pos (by simp), List.filter_eq_nil_iff.2]
        intro e he
        simpa using hheld e he
      · obtain ⟨ph', hq', hheld'⟩ := hj
        exact ⟨ph', hq', held_cons hji token now _ hheld'⟩
  | saveMember row token time =>
    obtain ⟨rfl, hrest⟩ := hobeys
    rcases act_saveMember hact with hq | rfl
    · exact quiet hq (hrest a _)
    · refine ⟨⟨.free, hrest a _, fun e he => ?_⟩, fun j q hji hj => ?_⟩
      · simpa using (List.mem_filter.1 he).2
      · obtain ⟨ph', hq', hheld'⟩ := hj
        exact ⟨ph', hq', held_filter hji _ _ hheld'⟩
  | insertToken token hash expires =>
    obtain ⟨rfl, hrest⟩ := hobeys
    rcases act_insertToken hact with hq | ⟨_, rfl⟩
    · exact quiet hq (hrest a)
    · exact ⟨⟨ph, hrest a, held_congr rfl hheld⟩, fun j q _ hj => hj⟩
  | current => exact quiet (act_quiet rfl hact) (hobeys a)
  | saveState next => exact quiet (act_quiet rfl hact) (hobeys a)
  | randomToken before => exact quiet (act_quiet rfl hact) (hobeys a)
  | now => exact quiet (act_quiet rfl hact) (hobeys a)
  | listMembers => exact quiet (act_quiet rfl hact) (hobeys a)
  | member nodeID => exact quiet (act_quiet rfl hact) (hobeys a)
  | deleteMember nodeID => exact quiet (act_quiet rfl hact) (hobeys a)
  | deleteMembers => exact quiet (act_quiet rfl hact) (hobeys a)
  | deleteExpired => exact quiet (act_quiet rfl hact) (hobeys a)

/-- One step of a call, for the accounts. -/
theorem turn_accounted (hinj : Function.Injective hashSecret) {i : ℕ} {op : Op} {x : Outside} {k : Ans op → Script}
    {s s' : Node} {a : Ans op} (h : Accounted hashSecret fine s) (hT : Holding hashSecret s i (.call op k))
    (hfine : ∀ token hash now, op = .consume token hash now →
      ∀ row ∈ s.tokens, row.redeems hash now = true → fine row.expires now)
    (hact : act i op x s = some (a, s')) : Accounted hashSecret fine s' := by
  obtain ⟨ph, hobeys, hheld⟩ := hT
  by_cases hop : op.quiet = true
  · exact h.quiet (act_quiet hop hact)
  cases op with
  | consume token hash now =>
    obtain ⟨rfl, rfl, -, -⟩ := hobeys
    rcases act_consume hact with ⟨hq, -⟩ | ⟨-, hone, rfl⟩
    · exact h.quiet hq
    · exact h.consume hinj i hone (hfine token _ now rfl)
  | saveMember row token time =>
    obtain ⟨rfl, -⟩ := hobeys
    rcases act_saveMember hact with hq | rfl
    · exact h.quiet hq
    · exact h.saveMember row hheld
  | insertToken token hash expires =>
    obtain ⟨rfl, -⟩ := hobeys
    rcases act_insertToken hact with hq | ⟨-, rfl⟩
    · exact h.quiet hq
    · exact h.insertToken hinj token expires
  | _ => exact absurd rfl hop

/-- The calls that have redeemed a token were there before the step, or it is that of the step. -/
theorem pending_act {i : ℕ} {op : Op} {x : Outside} {s s' : Node} {a : Ans op} (h : act i op x s = some (a, s')) :
    ∀ e ∈ s'.pending, e ∈ s.pending ∨ e.thread = i := by
  intro e he
  by_cases hop : op.quiet = true
  · rw [(act_quiet hop h).pending] at he
    exact .inl he
  · cases op with
    | consume token hash now =>
      rcases act_consume h with ⟨hq, _⟩ | ⟨_, _, rfl⟩
      · rw [hq.pending] at he
        exact .inl he
      · rcases List.mem_cons.1 he with rfl | he
        · exact .inr rfl
        · exact .inl he
    | saveMember row token time =>
      rcases act_saveMember h with hq | rfl
      · rw [hq.pending] at he
        exact .inl he
      · exact .inl (List.mem_filter.1 he).1
    | insertToken token hash expires =>
      rcases act_insertToken h with hq | ⟨_, rfl⟩
      · rw [hq.pending] at he
        exact .inl he
      · exact .inl he
    | _ => exact absurd rfl hop

variable (hashSecret) in
/-- The calls that have redeemed a token and not used it are under way. -/
structure Fits (w : System) : Prop where
  holds : w.Holds (fun _ => True) (fun s i _ p => Holding hashSecret s i p)
  threads : ∀ e ∈ w.shared.pending, e.thread < w.threads.length

theorem step_fits {w w' : System} {e : Turn Call Outside} (h : Fits hashSecret w)
    (hs : w.step hashSecret version e = some w') : Fits hashSecret w' := by
  refine ⟨Pool.step_holds (fun c _ => ?_) (fun i x c op k a s' _ _ _ hT hact => ?_) h.holds hs, ?_⟩
  · exact ⟨.free, body_obeys c, fun e he => (h.threads e he).ne⟩
  · obtain ⟨hT', hothers⟩ := turn_holding hT hact
    exact ⟨trivial, hT', fun j _ q hji hj => hothers j q hji hj⟩
  · cases e with
    | start c =>
      rw [System.step, Pool.step, Option.some.injEq] at hs
      subst hs
      intro e he
      have := h.threads e he
      rw [List.length_append]
      omega
    | turn i x =>
      obtain ⟨c, op, k, a, s', hi, hact, rfl⟩ := Pool.step_turn hs
      intro e he
      rw [List.length_set]
      rcases pending_act hact e he with he | rfl
      · exact h.threads e he
      · exact (List.getElem?_eq_some_iff.1 hi).1

theorem step_accounted (hinj : Function.Injective hashSecret) {w w' : System} {e : Turn Call Outside}
    (hok : Redeems fine w e) (hw : Fits hashSecret w) (h : Accounted hashSecret fine w.shared)
    (hs : w.step hashSecret version e = some w') : Accounted hashSecret fine w'.shared := by
  cases e with
  | start c =>
    rw [System.step, Pool.step, Option.some.injEq] at hs
    subst hs
    exact h
  | turn i x =>
    obtain ⟨c, op, k, a, s', hi, hact, rfl⟩ := Pool.step_turn hs
    refine turn_accounted hinj h (hw.holds.threads i c _ hi) (fun token hash now hop => ?_) hact
    subst hop
    exact hok c token hash now k hi

/-- No token was issued, redeemed or used yet. -/
structure Fresh (s : Node) : Prop where
  tokens : s.tokens = []
  issued : s.issued = []
  pending : s.pending = []
  admitted : s.admitted = []

theorem Fresh.fits {start : Node} (h : Fresh start) : Fits hashSecret { shared := start } :=
  ⟨⟨trivial, fun i c p hi => by simp at hi⟩, by simp [h.pending]⟩

theorem Fresh.accounted {start : Node} (h : Fresh start) : Accounted hashSecret fine start := by
  refine ⟨?_, fun token => ?_, ?_⟩
  · simp [h.tokens]
  · simp [h.tokens, h.pending, h.admitted]
  · simp [h.pending, h.admitted]

theorem run_accounted (hinj : Function.Injective hashSecret) {start : Node} (hstart : Fresh start)
    {es : List (Turn Call Outside)} {w : System}
    (hok : Meets (System.step hashSecret version) (Redeems fine) { shared := start } es)
    (hrun : run (System.step hashSecret version) { shared := start } es = some w) :
    Accounted hashSecret fine w.shared := by
  have h := run_invariant (P := fun w => Fits hashSecret w ∧ Accounted hashSecret fine w.shared)
    (fun w e w' hok h hs => ⟨step_fits h.1 hs, step_accounted hinj hok h.1 h.2 hs⟩) hok hrun
    ⟨hstart.fits, hstart.accounted⟩
  exact h.2

end

/-! ### Runs -/

/-- **Tokens are used once.** In every run of calls on a node, each token admits at most as many members as it was issued
times, and none that was not issued. -/
theorem tokens_once {hashSecret : Str → Str} (hinj : Function.Injective hashSecret) {version : Str} {start : Node}
    (hstart : Fresh start) {es : List (Turn Call Outside)} {w : System}
    (hrun : run (System.step hashSecret version) { shared := start } es = some w) (token : Str) :
    w.shared.admitted.countP (fun e => e.token = token) ≤ w.shared.issued.countP (fun issue => issue.token = token) := by
  have hok : Meets (System.step hashSecret version) (Redeems (fun _ _ => True)) { shared := start } es := by
    refine meets_mono (fun w e _ => ?_) (meets_true _ es)
    cases e with
    | start c => trivial
    | turn i x => exact fun _ _ _ _ _ _ _ _ _ => trivial
  have h := (run_accounted hinj hstart hok hrun).counted token
  omega

/-- **What the statement compares.** Up to the year 9999 a token is redeemed until its expiry, but for the times of the
second of its expiry whose texts are read in the other order. -/
theorem redeems_iff {row : TokenRow} {hash : Str} {now : ℕ} (hexpires : Stamp.year row.expires < 10 ^ 4)
    (hnow : Stamp.year now < 10 ^ 4) :
    row.redeems hash now = true ↔ row.hash = hash ∧
      (now ≤ row.expires ∨ Stamp.Shorter row.expires now) ∧ ¬ Stamp.Shorter now row.expires := by
  have hlt := Stamp.rfc3339Nano_lt hexpires hnow
  simp only [TokenRow.redeems, TokenRow.expiresAt, Bool.and_eq_true, decide_eq_true_eq, Bool.not_eq_true',
    decide_eq_false_iff_not, hlt]
  refine and_congr_right fun _ => ?_
  have hle : now ≤ row.expires ↔ ¬ row.expires < now := not_lt.symm
  rw [hle]
  tauto

/-- In the step, no token is looked for in the second of its expiry at a time whose fraction the fraction of the expiry
starts, and the years have four digits. -/
def inTime (w : System) : Turn Call Outside → Bool
  | .start _ => true
  | .turn i _ =>
    match w.threads[i]? with
    | some (_, .call (.consume _ hash now) _) =>
      w.shared.tokens.all (fun row => row.hash ≠ hash ||
        (Stamp.year row.expires < 10 ^ 4 && Stamp.year now < 10 ^ 4 && !decide (Stamp.Shorter row.expires now)))
    | _ => true

/-- What a join token promises: it admits one member each time it was issued, and not after its expiry. -/
structure TokensSafe (s : Node) : Prop where
  once : ∀ token, s.admitted.countP (fun e => e.token = token) ≤ s.issued.countP (fun issue => issue.token = token)
  timely : ∀ e ∈ s.admitted, ∃ issue ∈ s.issued, issue.token = e.token ∧ e.time ≤ issue.expires

theorem redeems_inTime {w : System} {e : Turn Call Outside} (h : inTime w e = true) :
    Redeems (fun expires now => now ≤ expires) w e := by
  cases e with
  | start c => trivial
  | turn i x =>
    intro c token hash now k hi row hrow hredeems
    rw [inTime, hi] at h
    have hall := List.all_eq_true.1 h row hrow
    have hhash : row.hash = hash := by
      simp only [TokenRow.redeems, Bool.and_eq_true, decide_eq_true_eq] at hredeems
      exact hredeems.1
    simp only [hhash, ne_eq, not_true_eq_false, decide_false, Bool.false_or, Bool.and_eq_true, decide_eq_true_eq,
      Bool.not_eq_true', decide_eq_false_iff_not] at hall
    obtain ⟨⟨hexpires, hnow⟩, hshorter⟩ := hall
    have hiff := (redeems_iff hexpires hnow).1 hredeems
    exact hiff.2.1.resolve_right hshorter

theorem tokens_safe {hashSecret : Str → Str} (hinj : Function.Injective hashSecret) {version : Str} {start : Node}
    (hstart : Fresh start) {es : List (Turn Call Outside)} {w : System}
    (hok : Meets (System.step hashSecret version) (fun w e => inTime w e = true) { shared := start } es)
    (hrun : run (System.step hashSecret version) { shared := start } es = some w) : TokensSafe w.shared := by
  have hok' : Meets (System.step hashSecret version) (Redeems (fun expires now => now ≤ expires))
      { shared := start } es := meets_mono (fun w e h => redeems_inTime h) hok
  have h := run_accounted hinj hstart hok' hrun
  exact ⟨tokens_once hinj hstart hrun, fun e he => h.backed e (.inr he)⟩

/-! ### A primary -/

def token₁ : Str := "vjt_AAECAwQFBgcICQoLDA0ODxAREhMUFRYXGBkaGxwdHh8".toList
def secret₁ : Str := "vns_ICEiIyQlJicoKSorLC0uLzAxMjM0NTY3ODk6Ozw9Pj8".toList
def token₂ : Str := "vjt_QEFCQ0RFRkdISUpLTE1OT1BRUlNUVVZXWFlaW1xdXl8".toList
def secret₂ : Str := "vns_YGFiY2RlZmdoaWprbG1ub3BxcnN0dXZ3eHl6e3x9fn8".toList

/-- Their hashes. -/
def hashes : List (Str × Str) := [
  (token₁, "83d3897f8beb11404d173e066503eb3b47cead23af9712cac9ebbe61a4e4f920".toList),
  (secret₁, "3a60ee00812106b8127af60ef69ebd5bb9d8d2ad6adffa94ef6eb1b7e1ffe73e".toList),
  (token₂, "e00d5be53ff6f1b55921023b065773c3e11d8f0f441f81268d95c7192d73e3d8".toList),
  (secret₂, "e2f6c14206786e30ce16601b497e61ee0d70b108745d5d7b356bb6166dd315e1".toList)]

/-- An injective function that agrees with SHA-256 on them. -/
def sha256 : Equiv.Perm Str := (hashes.map (fun p => Equiv.swap p.1 p.2)).prod

example : sha256 token₂ = "e00d5be53ff6f1b55921023b065773c3e11d8f0f441f81268d95c7192d73e3d8".toList := by decide +kernel

def primary : Node where
  state :=
    { role := .primary, clusterID := "c0c0c0c0c0c0c0c0c0c0c0c0".toList, nodeID := "a0a0a0a0a0a0a0a0a0a0a0a0".toList
      nodeName := "dns1".toList }

def replica (nodeID name : String) (token : Str) : JoinRequest where
  token := token
  protocol := 1
  nodeID := nodeID.toList
  name := name.toList
  version := "1.0".toList

/-- Half past eleven on the first of January 2026. -/
def halfPastEleven : ℕ := 63902863800 * 1000000000

/-- The turns of call `i` that issues a token at the time `t`. -/
def issues (i : ℕ) (token : Str) (t : ℕ) : List (Turn Call Outside) :=
  [.start .issue, .turn i {}, .turn i {}, .turn i { random := .ok (token.drop 4) }, .turn i { time := t },
    .turn i { time := t }, .turn i {}]

/-- The turns of call `i` with which a replica joins at the time `t`. -/
def joins (i : ℕ) (request : JoinRequest) (secret : Str) (t : ℕ) : List (Turn Call Outside) :=
  [.start (.join request "192.0.2.2".toList), .turn i {}, .turn i { time := t }, .turn i {}, .turn i {},
    .turn i { random := .ok (secret.drop 4) }, .turn i { time := t }, .turn i {}]

/-- A token is issued at half past eleven, and redeemed `late` nanoseconds after twelve. -/
def lateRun (late : ℕ) : List (Turn Call Outside) :=
  issues 0 token₁ halfPastEleven ++
    joins 1 (replica "b1b1b1b1b1b1b1b1b1b1b1b1" "dns2" token₁) secret₁ (halfPastEleven + joinTokenLifetime + late)

/-- A join at the expiry of its token is one the token is good for. -/
theorem tokens_safe_join : ∃ w, run (System.step sha256 "1.0".toList) { shared := primary } (lateRun 0) = some w ∧
    w.shared.admitted.length = 1 ∧ TokensSafe w.shared := by
  have hrun : (run (System.step sha256 "1.0".toList) { shared := primary } (lateRun 0)).any
      (fun w => w.shared.admitted.length == 1) = true := by
    decide +kernel
  obtain ⟨w, hw, hlen⟩ := (Option.any_eq_true _ _).1 hrun
  exact ⟨w, hw, by simpa using hlen,
    tokens_safe sha256.injective ⟨rfl, rfl, rfl, rfl⟩ (meets_of_checks (by decide +kernel)) hw⟩

/-- Half a second after twelve, a token is accepted that has expired at twelve. -/
theorem late_join : ∃ w, run (System.step sha256 "1.0".toList) { shared := primary } (lateRun 500000000) = some w ∧
    ¬ TokensSafe w.shared := by
  have hrun : (run (System.step sha256 "1.0".toList) { shared := primary } (lateRun 500000000)).any
      (fun w => w.shared.admitted.any (fun e => w.shared.issued.all (fun issue => issue.expires < e.time))) = true := by
    decide +kernel
  obtain ⟨w, hw, hlate⟩ := (Option.any_eq_true _ _).1 hrun
  refine ⟨w, hw, fun hsafe => ?_⟩
  obtain ⟨e, he, hall⟩ := List.any_eq_true.1 hlate
  obtain ⟨issue, hissue, _, htime⟩ := hsafe.timely e he
  have hlt := of_decide_eq_true (List.all_eq_true.1 hall issue hissue)
  omega

end Velora.Cluster.Members
