import Velora.Cluster.Tokens

/-!
# The number of members

The limit on the members is checked when a token is issued. A run keeps it exactly when no member is saved beyond it
(`members_bounded`), for which it is enough that each token is stored while members, tokens and joins under way are fewer
than the limit together; nothing in the code sees to that (`seventeen_members`).
-/

namespace Velora.Cluster.Members

open Velora.Lib Velora.Lib.Text

/-- The statement of `SaveClusterMember` adds its row. -/
def Outside.saves (x : Outside) (row : MemberRow) (s : Node) : Bool :=
  (match x.db with
    | .failed _ => false
    | _ => true) && !s.members.any (fun old => old.member.nodeID = row.member.nodeID)

/-- A member that is saved in the step is saved while fewer than the limit are stored. -/
def savesBelow (w : System) : Turn Call Outside → Bool
  | .start _ => true
  | .turn i x =>
    match w.threads[i]? with
    | some (_, .call (.saveMember row _ _) _) => !x.saves row w.shared || decide (w.shared.members.length < maxMembers)
    | _ => true

/-- The call is not done. -/
def System.running (w : System) (i : ℕ) : Bool :=
  match w.threads[i]? with
  | some (_, .call _ _) => true
  | _ => false

/-- The joins that have redeemed a token and not saved a member, and are not done. -/
def System.underWay (w : System) : ℕ := w.shared.pending.countP (fun e => w.running e.thread)

/-- What may become a member without another token. -/
def System.claimed (w : System) : ℕ := w.shared.members.length + w.shared.tokens.length + w.underWay

/-- A token that is stored in the step is stored while members, tokens and joins under way are fewer than the limit. -/
def reserved (w : System) : Turn Call Outside → Bool
  | .start _ => true
  | .turn i _ =>
    match w.threads[i]? with
    | some (_, .call (.insertToken _ _ _) _) => decide (w.claimed < maxMembers)
    | _ => true

/-! ### The last step of a join -/

theorem act_saves {i : ℕ} {row : MemberRow} {token : Str} {time : ℕ} {x : Outside} {s s' : Node} {a : Option Err}
    (h : act i (.saveMember row token time) x s = some (a, s')) :
    s'.members.length = s.members.length + if x.saves row s then 1 else 0 := by
  rw [act, Option.some.injEq] at h
  rw [Outside.saves]
  cases hany : s.members.any (fun old => old.member.nodeID = row.member.nodeID) with
  | true =>
    rw [hany, if_pos rfl] at h
    rcases answer_left h with rfl | rfl <;> simp
  | false =>
    rw [hany, if_neg (by simp)] at h
    cases hx : x.db with
    | done =>
      rw [hx] at h
      cases h
      simp
    | failed text =>
      rw [hx] at h
      cases h
      simp
    | lost text =>
      rw [hx] at h
      cases h
      simp

/-- Only the last step of a join adds a member. -/
theorem act_members {i : ℕ} {op : Op} {x : Outside} {s s' : Node} {a : Ans op} (h : act i op x s = some (a, s'))
    (hop : ∀ row token time, op ≠ .saveMember row token time) : s'.members.length ≤ s.members.length := by
  by_cases hq : op.quiet = true
  · exact (act_quiet hq h).members
  cases op with
  | saveMember row token time => exact absurd rfl (hop row token time)
  | insertToken token hash expires =>
    rcases act_insertToken h with hq | ⟨-, rfl⟩
    · exact hq.members
    · exact le_refl _
  | consume token hash now =>
    rcases act_consume h with ⟨hq, -⟩ | ⟨-, -, rfl⟩
    · exact hq.members
    · exact le_refl _
  | _ => exact absurd rfl hq

section

variable {hashSecret : Str → Str} {version : Str}

theorem step_below {w w' : System} {e : Turn Call Outside} (h : w.shared.members.length ≤ maxMembers)
    (hs : w.step hashSecret version e = some w') :
    w'.shared.members.length ≤ maxMembers ↔ savesBelow w e = true := by
  cases e with
  | start c =>
    rw [System.step, Pool.step, Option.some.injEq] at hs
    subst hs
    exact ⟨fun _ => rfl, fun _ => h⟩
  | turn i x =>
    obtain ⟨c, op, k, a, s', hi, hact, rfl⟩ := Pool.step_turn hs
    rw [savesBelow, hi]
    by_cases hop : ∃ row token time, op = .saveMember row token time
    · obtain ⟨row, token, time, rfl⟩ := hop
      have hlen := act_saves hact
      dsimp only
      rw [hlen]
      cases x.saves row w.shared with
      | true =>
        rw [if_pos rfl, Bool.not_true, Bool.false_or, decide_eq_true_eq]
        exact Nat.succ_le_iff
      | false => simpa using h
    · push Not at hop
      have hlen := act_members hact hop
      have hle : s'.members.length ≤ maxMembers := hlen.trans h
      refine ⟨fun _ => ?_, fun _ => hle⟩
      cases op with
      | saveMember row token time => exact absurd rfl (hop row token time)
      | _ => rfl

/-! ### Reserved places -/

/-- A turn starts no call and takes up none that is done. -/
theorem running_set {w : System} {i : ℕ} {c : Call} {op : Op} {k : Ans op → Script} (hi : w.threads[i]? = some (c, .call op k))
    (s : Node) (p : Script) (j : ℕ)
    (h : System.running { shared := s, threads := w.threads.set i (c, p) } j = true) : w.running j = true := by
  by_cases hji : j = i
  · rw [hji, System.running, hi]
  · rw [System.running, List.getElem?_set_ne (Ne.symm hji)] at h
    exact h

theorem running_self {w : System} {i : ℕ} {c : Call} {op : Op} {k : Ans op → Script}
    (hi : w.threads[i]? = some (c, .call op k)) : w.running i = true := by
  rw [System.running, hi]

theorem running_concat {w : System} (t : Call × Script) {j : ℕ} (hj : j < w.threads.length) :
    System.running { w with threads := w.threads ++ [t] } j = w.running j := by
  rw [System.running, System.running, List.getElem?_append_left hj]

/-- **A step keeps the places** that are claimed within the limit. -/
theorem step_claimed {w w' : System} {e : Turn Call Outside} (hfits : Fits hashSecret w) (h : w.claimed ≤ maxMembers)
    (hok : reserved w e = true) (hs : w.step hashSecret version e = some w') : w'.claimed ≤ maxMembers := by
  cases e with
  | start c =>
    rw [System.step, Pool.step, Option.some.injEq] at hs
    subst hs
    have hsame : System.underWay { w with threads := w.threads ++ [(c, body hashSecret version c)] } = w.underWay :=
      List.countP_congr fun e he => by rw [running_concat _ (hfits.threads e he)]
    rw [System.claimed, hsame]
    exact h
  | turn i x =>
    obtain ⟨c, op, k, a, s', hi, hact, rfl⟩ := Pool.step_turn hs
    have hmono : ∀ l : List Redeemed,
        l.countP (fun e => System.running { shared := s', threads := w.threads.set i (c, k a) } e.thread) ≤
          l.countP (fun e => w.running e.thread) :=
      fun l => List.countP_mono_left fun e _ he => running_set hi s' (k a) e.thread he
    rw [System.claimed, System.underWay] at h
    have quiet : Quiet w.shared s' →
        System.claimed { shared := s', threads := w.threads.set i (c, k a) } ≤ maxMembers := by
      intro hq
      have htokens := hq.tokens.length_le
      have hmembers := hq.members
      have hunder := hmono s'.pending
      rw [hq.pending] at hunder
      rw [System.claimed, System.underWay]
      dsimp only
      rw [hq.pending]
      omega
    by_cases hop : op.quiet = true
    · exact quiet (act_quiet hop hact)
    cases op with
    | insertToken token hash expires =>
      rcases act_insertToken hact with hq | ⟨-, rfl⟩
      · exact quiet hq
      · rw [reserved, hi] at hok
        have hlt := of_decide_eq_true hok
        rw [System.claimed, System.underWay] at hlt ⊢
        have hunder := hmono w.shared.pending
        rw [List.length_cons]
        dsimp only at hunder ⊢
        omega
    | consume token hash now =>
      rcases act_consume hact with ⟨hq, -⟩ | ⟨-, hone, rfl⟩
      · exact quiet hq
      · -- a token less and a join under way more
        have hleft : w.shared.tokens.length =
            1 + (w.shared.tokens.filter (fun row => !row.redeems hash now)).length := by
          rw [List.length_eq_countP_add_countP (TokenRow.redeems hash now), hone, List.countP_eq_length_filter]
          simp
        have hunder := hmono (⟨i, token, now⟩ :: w.shared.pending)
        rw [List.countP_cons (p := fun e : Redeemed => w.running e.thread), if_pos (running_self hi)] at hunder
        rw [System.claimed, System.underWay]
        dsimp only at hunder ⊢
        omega
    | saveMember row token time =>
      rcases act_saveMember hact with hq | rfl
      · exact quiet hq
      · -- the join was under way and is not any more
        obtain ⟨ph, ⟨rfl, -⟩, hheld⟩ := hfits.holds.threads i c _ hi
        have hheld : w.shared.pending.filter (fun e => e.thread = i) = [⟨i, token, time⟩] := hheld
        have hsplit := List.countP_eq_countP_filter_add w.shared.pending (fun e => w.running e.thread)
          (fun e => e.thread = i)
        rw [hheld, List.countP_singleton, if_pos (running_self hi)] at hsplit
        have hrest : w.shared.pending.filter (fun e => !decide (e.thread = i)) =
            w.shared.pending.filter (fun e => e.thread ≠ i) := by
          simp
        rw [hrest] at hsplit
        have hunder := hmono (w.shared.pending.filter (fun e => e.thread ≠ i))
        rw [System.claimed, System.underWay, List.length_cons]
        dsimp only at hunder ⊢
        omega
    | _ => exact absurd rfl hop

end

/-! ### A primary with fifteen members -/

def fifteen : Node where
  state := primary.state
  members := (List.range 15).map (fun n =>
    { member :=
        { nodeID := List.replicate 22 'd' ++ Stamp.pad 2 n, name := "dns".toList ++ Stamp.pad 2 n
          address := "192.0.2.9".toList, version := "1.0".toList, joinedAt := 0 }
      credentialHash := [] })

def sixteenRun : List (Turn Call Outside) :=
  issues 0 token₁ halfPastEleven ++ joins 1 (replica "b1b1b1b1b1b1b1b1b1b1b1b1" "dns2" token₁) secret₁ halfPastEleven

/-- Two tokens are issued, and both are redeemed. -/
def seventeenRun : List (Turn Call Outside) :=
  issues 0 token₁ halfPastEleven ++ issues 1 token₂ halfPastEleven ++
    joins 2 (replica "b1b1b1b1b1b1b1b1b1b1b1b1" "dns2" token₁) secret₁ halfPastEleven ++
    joins 3 (replica "b2b2b2b2b2b2b2b2b2b2b2b2" "dns3" token₂) secret₂ halfPastEleven

end Velora.Cluster.Members
