import Velora.Lib.Prog

/-!
# Pools with a history

The shared state of a pool may keep a history of what its threads have done. A *protocol* says which calls a thread may make
when certain events of its own are behind it, and which ones it knows to be behind it after an answer; a program is checked
against it alone (`Prog.obeys`). `Pool.run_follows`: in every run each thread keeps to the protocol from its own events on, and
what holds of its events when it makes a step as the protocol allows, holds throughout.
-/

namespace Velora.Lib

/-- An event: the thread that did it, and what. -/
structure Deed (W : Type) where
  thread : ℕ
  what : W
  deriving DecidableEq

namespace Deed

variable {W : Type}

/-- The events of one thread. -/
def own (i : ℕ) (history : List (Deed W)) : List W := (history.filter (fun e => e.thread = i)).map what

@[simp] theorem own_nil (i : ℕ) : own i ([] : List (Deed W)) = [] := rfl

theorem own_append (i : ℕ) (h h' : List (Deed W)) : own i (h ++ h') = own i h ++ own i h' := by
  rw [own, own, own, List.filter_append, List.map_append]

/-- Events that thread `i` adds are its own, and of no other thread. -/
theorem own_told (i j : ℕ) (es : List W) (history : List (Deed W)) :
    own j (es.map (fun w => ⟨i, w⟩) ++ history) = if i = j then es ++ own j history else own j history := by
  have hmap : (es.map (fun w => (⟨i, w⟩ : Deed W))).filter (fun e => e.thread = j) =
      if i = j then es.map (fun w => ⟨i, w⟩) else [] := by
    split
    · rename_i hij
      exact List.filter_eq_self.2 fun e he => by
        obtain ⟨w, -, rfl⟩ := List.mem_map.1 he
        exact decide_eq_true hij
    · rename_i hij
      exact List.filter_eq_nil_iff.2 fun e he => by
        obtain ⟨w, -, rfl⟩ := List.mem_map.1 he
        exact fun h => hij (of_decide_eq_true h)
  rw [own_append, own, hmap]
  split
  · rw [List.map_map]
    exact congrArg (· ++ own j history) (List.map_id es)
  · rfl

theorem mem_own {i : ℕ} {w : W} {history : List (Deed W)} : w ∈ own i history ↔ ⟨i, w⟩ ∈ history := by
  rw [own, List.mem_map]
  constructor
  · rintro ⟨e, he, rfl⟩
    obtain ⟨hmem, hi⟩ := List.mem_filter.1 he
    rw [← of_decide_eq_true hi]
    exact hmem
  · exact fun h => ⟨_, List.mem_filter.2 ⟨h, decide_eq_true rfl⟩, rfl⟩

theorem own_subset {i : ℕ} {before history : List (Deed W)} (hsub : before ⊆ history) : own i before ⊆ own i history :=
  fun _ hw => mem_own.2 (hsub (mem_own.1 hw))

theorem own_of_absent {i : ℕ} {history : List (Deed W)} (h : ∀ e ∈ history, e.thread ≠ i) : own i history = [] := by
  rw [own, List.filter_eq_nil_iff.2 fun e he hi => h e he (of_decide_eq_true hi)]
  rfl

/-- Every event of thread `i` has its grounds in what has gone before it. -/
def Grounded (grounds : List (Deed W) → W → Prop) (i : ℕ) : List (Deed W) → Prop
  | [] => True
  | e :: past => (e.thread = i → grounds past e.what) ∧ Grounded grounds i past

section

variable {grounds : List (Deed W) → W → Prop} {i j : ℕ} {history : List (Deed W)}

theorem grounded_of_absent (h : ∀ e ∈ history, e.thread ≠ i) : Grounded grounds i history := by
  induction history with
  | nil => trivial
  | cons e past ih =>
    exact ⟨fun hi => absurd hi (h e List.mem_cons_self), ih fun e' he' => h e' (List.mem_cons_of_mem e he')⟩

/-- What another thread does needs no grounds here. -/
theorem Grounded.append_others {es : List W} (hij : i ≠ j) (h : Grounded grounds j history) :
    Grounded grounds j (es.map (fun w => ⟨i, w⟩) ++ history) := by
  induction es with
  | nil => exact h
  | cons w es ih => exact ⟨fun hj => absurd hj hij, ih⟩

/-- The grounds of an event are in the history. -/
theorem Grounded.of_mem (h : Grounded grounds i history) {what : W} (hmem : ⟨i, what⟩ ∈ history) :
    ∃ before, before ⊆ history ∧ grounds before what := by
  induction history with
  | nil => cases hmem
  | cons e past ih =>
    rcases List.mem_cons.1 hmem with heq | hmem
    · subst heq
      exact ⟨past, List.subset_cons_self _ _, h.1 rfl⟩
    · obtain ⟨before, hsub, hgrounds⟩ := ih h.2 hmem
      exact ⟨before, List.Subset.trans hsub (List.subset_cons_self _ _), hgrounds⟩

end

end Deed

/-- Which calls a thread may make with certain events behind it, and which ones an answer adds to them. -/
structure Protocol (Call Op : Type) (Ans : Op → Type) (W : Type) where
  allows : Call → List W → Op → Prop
  learns : (op : Op) → Ans op → List W → Prop

/-- The protocol as one that `Prog.obeys` is about: the phase is the events behind a thread. -/
def Protocol.spec {Call Op W : Type} {Ans : Op → Type} (P : Protocol Call Op Ans W) (c : Call) (op : Op)
    (Q : Ans op → List W → Prop) (past : List W) : Prop :=
  P.allows c past op ∧ ∀ a es, P.learns op a es → Q a (es ++ past)

theorem Protocol.obeys_mono {Call Op W α : Type} {Ans : Op → Type} {P : Protocol Call Op Ans W} {c : Call}
    {p : Prog Op Ans α} {Q R : α → List W → Prop} {past : List W} (h : p.obeys (P.spec c) Q past)
    (hQR : ∀ a past', Q a past' → R a past') : p.obeys (P.spec c) R past := by
  induction p generalizing past with
  | done a => exact hQR a past h
  | call op k ih => exact ⟨h.1, fun a es hes => ih a (h.2 a es hes)⟩

namespace Pool

variable {S Call Op χ α W : Type} {Ans : Op → Type} {body : Call → Prog Op Ans α}
  {act : ℕ → (op : Op) → χ → S → Option (Ans op × S)}

/-- A shared state with a history, and threads that keep to a protocol. -/
structure Follows (P : Protocol Call Op Ans W) (history : S → List (Deed W)) (I : S → Prop)
    (G : List (Deed W) → ℕ → Call → Prop) (Q : Call → α → List W → Prop) (w : Pool S Call Op Ans α) : Prop where
  shared : I w.shared
  threads : ∀ i c p, w.threads[i]? = some (c, p) →
    G (history w.shared) i c ∧ p.obeys (P.spec c) (Q c) (Deed.own i (history w.shared))
  owned : ∀ e ∈ history w.shared, e.thread < w.threads.length

variable {P : Protocol Call Op Ans W} {history : S → List (Deed W)} {I : S → Prop} {G : List (Deed W) → ℕ → Call → Prop}
  {Q : Call → α → List W → Prop}

/-- **One step** of a pool whose threads keep to a protocol. -/
theorem step_follows {w w' : Pool S Call Op Ans α} {e : Turn Call χ} (hbody : ∀ c, (body c).obeys (P.spec c) (Q c) [])
    (hstart : ∀ h i c, (∀ e ∈ h, e.thread ≠ i) → G h i c)
    (hother : ∀ h i j c (es : List W), i ≠ j → G h j c → G (es.map (fun w => ⟨i, w⟩) ++ h) j c)
    (hact : ∀ i c op x s a s', I s → G (history s) i c → P.allows c (Deed.own i (history s)) op →
      act i op x s = some (a, s') → I s' ∧ G (history s') i c ∧
        ∃ es, history s' = es.map (fun w => ⟨i, w⟩) ++ history s ∧ P.learns op a es)
    (h : w.Follows P history I G Q) (hs : w.step body act e = some w') : w'.Follows P history I G Q := by
  cases e with
  | start c =>
    simp only [step, Option.some.injEq] at hs
    subst hs
    refine ⟨h.shared, fun i d p hi => ?_, fun e he => ?_⟩
    · rw [List.getElem?_append] at hi
      split at hi
      · exact h.threads i d p hi
      · rename_i hlt
        rw [List.getElem?_singleton] at hi
        split at hi
        · cases hi
          have habsent : ∀ e ∈ history w.shared, e.thread ≠ i := fun e he heq => hlt (heq ▸ h.owned e he)
          refine ⟨hstart _ i c habsent, ?_⟩
          rw [Deed.own_of_absent habsent]
          exact hbody c
        · cases hi
    · rw [List.length_append]
      exact (h.owned e he).trans_le (Nat.le_add_right _ _)
  | turn i x =>
    obtain ⟨c, op, k, a, s', hi, hact', rfl⟩ := step_turn hs
    obtain ⟨hG, hallows, hnext⟩ := h.threads i c _ hi
    obtain ⟨hI, hG', es, hhistory, hlearns⟩ := hact i c op x w.shared a s' h.shared hG hallows hact'
    have hlt : i < w.threads.length := (List.getElem?_eq_some_iff.1 hi).1
    refine ⟨hI, fun j d p hj => ?_, fun e he => ?_⟩
    · dsimp only at hj ⊢
      by_cases hji : j = i
      · subst hji
        rw [List.getElem?_set_self hlt, Option.some.injEq, Prod.mk.injEq] at hj
        obtain ⟨rfl, rfl⟩ := hj
        refine ⟨hG', ?_⟩
        rw [hhistory, Deed.own_told, if_pos rfl]
        exact hnext a es hlearns
      · rw [List.getElem?_set_ne (Ne.symm hji)] at hj
        obtain ⟨hGj, hp⟩ := h.threads j d p hj
        rw [hhistory]
        refine ⟨hother _ i j d es (Ne.symm hji) hGj, ?_⟩
        rw [Deed.own_told, if_neg (Ne.symm hji)]
        exact hp
    · dsimp only at he ⊢
      rw [List.length_set]
      rw [hhistory] at he
      rcases List.mem_append.1 he with he | he
      · obtain ⟨w, -, rfl⟩ := List.mem_map.1 he
        exact hlt
      · exact h.owned e he

/-- **A run** of a pool whose threads keep to a protocol. -/
theorem run_follows {w : Pool S Call Op Ans α} {s : S} {es : List (Turn Call χ)}
    (hbody : ∀ c, (body c).obeys (P.spec c) (Q c) []) (hstart : ∀ h i c, (∀ e ∈ h, e.thread ≠ i) → G h i c)
    (hother : ∀ h i j c (es : List W), i ≠ j → G h j c → G (es.map (fun w => ⟨i, w⟩) ++ h) j c)
    (hact : ∀ i c op x s a s', I s → G (history s) i c → P.allows c (Deed.own i (history s)) op →
      act i op x s = some (a, s') → I s' ∧ G (history s') i c ∧
        ∃ es, history s' = es.map (fun w => ⟨i, w⟩) ++ history s ∧ P.learns op a es)
    (hI : I s) (hempty : history s = []) (hrun : run (step body act) { shared := s } es = some w) :
    w.Follows P history I G Q := by
  refine run_keeps (P := Follows P history I G Q) (fun w e w' h hs => step_follows hbody hstart hother hact h hs) hrun
    ⟨hI, by simp, ?_⟩
  rw [hempty]
  simp

end Pool

end Velora.Lib
