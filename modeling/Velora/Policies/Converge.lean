import Velora.Policies.Service

/-!
# The policies converge

The table of matchers is compiled from policies and sources that two services change under different locks. Whenever the lock
of recompilations is free, the table is what the policies and the published sources compile to, or a recompilation is owed:
sources were stored and the recompilation they announce has not got its lock yet (`Owed`). A thread with the lock relies on
the others for no more than that they owe one when they publish (`Rely`), so what it compiles from sources that change under
it is replaced in the end (`converges`).
-/

namespace Velora.Policies

open Velora.Lib Velora.Lib.Text Velora.Lib.Loops
open Velora.Dns (Map)
open Velora.Filtering (Source Matcher Clean Usable subset subset_ok)

/-! ### What the table holds -/

section Table

variable (sub : List ℤ → List Filtering.Rule → Except Filtering.Err Matcher)

/-- The entry of a policy. -/
def Policy.entry (p : Policy) : Option (Option Matcher) :=
  match p.adds with
  | .nothing => none
  | .unfiltered => some none
  | .subset => (sub p.blocklists (extraRules p)).toOption.map some

/-- The policy of a client. -/
def ofClient (ps : List Policy) (client : ℤ) : Option Policy := ps.find? (fun p => p.clientID = client)

/-- No client has two policies. -/
def Single (ps : List Policy) : Prop := (ps.map Policy.clientID).Nodup

variable {sub}

theorem addPolicy_lookup {next c : Compiled} {p : Policy} (h : addPolicy sub next p = .ok c) (client : ℤ) :
    c.lookup client = if p.clientID = client then (p.entry sub).or (next.lookup client) else next.lookup client := by
  cases hadds : p.adds with
  | nothing =>
    simp only [addPolicy, hadds] at h
    cases h
    simp [Policy.entry, hadds]
  | unfiltered =>
    simp only [addPolicy, hadds] at h
    cases h
    simp only [Policy.entry, hadds]
    by_cases hc : p.clientID = client
    · simp [hc, AList.lookup_insert]
    · rw [if_neg hc, AList.lookup_insert_ne (Ne.symm hc)]
  | subset =>
    simp only [addPolicy, hadds] at h
    simp only [Policy.entry, hadds]
    cases hm : sub p.blocklists (extraRules p) with
    | error e =>
      rw [hm] at h
      cases h
    | ok m =>
      rw [hm] at h
      cases h
      by_cases hc : p.clientID = client
      · simp [hc, AList.lookup_insert, Except.toOption]
      · rw [if_neg hc, AList.lookup_insert_ne (Ne.symm hc)]

theorem foldlM_lookup : ∀ {ps : List Policy} {next c : Compiled}, Single ps → ps.foldlM (addPolicy sub) next = .ok c →
    ∀ client, c.lookup client = ((ofClient ps client).bind (Policy.entry sub)).or (next.lookup client)
  | [], next, c, _, h, client => by
    cases h
    rfl
  | p :: ps, next, c, hs, h, client => by
    rw [Single, List.map_cons, List.nodup_cons] at hs
    rw [List.foldlM_cons] at h
    obtain ⟨next', hp, hrest⟩ := bind_eq_ok.1 h
    rw [foldlM_lookup hs.2 hrest client, addPolicy_lookup hp client]
    unfold ofClient
    by_cases hc : p.clientID = client
    · -- no other policy of the client comes later
      have hnone : ps.find? (fun p => p.clientID = client) = none := by
        rw [List.find?_eq_none]
        intro x hx hxc
        exact hs.1 (List.mem_map.2 ⟨x, hx, by rw [hc]; simpa using hxc⟩)
      rw [List.find?_cons_of_pos (by simpa using hc), hnone, if_pos hc]
      rfl
    · rw [List.find?_cons_of_neg (by simpa using hc), if_neg hc]

/-- **The table of the compiled policies**: every client has the entry of its policy. -/
theorem compile_lookup {ps : List Policy} {c : Compiled} (hs : Single ps) (h : compile sub ps = .ok c) (client : ℤ) :
    c.lookup client = (ofClient ps client).bind (Policy.entry sub) := by
  rw [foldlM_lookup hs h client, AList.lookup_empty]
  simp

/-- The policies compile when `Subset` refuses nothing. -/
theorem foldlM_ok : ∀ {ps : List Policy} {next : Compiled},
    (∀ p ∈ ps, ∃ m, sub p.blocklists (extraRules p) = .ok m) → ∃ c, ps.foldlM (addPolicy sub) next = .ok c
  | [], next, _ => ⟨next, rfl⟩
  | p :: ps, next, h => by
    rw [List.forall_mem_cons] at h
    obtain ⟨⟨m, hm⟩, hrest⟩ := h
    have hp : ∃ next', addPolicy sub next p = .ok next' := by
      unfold addPolicy
      split
      · exact ⟨_, rfl⟩
      · exact ⟨_, rfl⟩
      · rw [hm]
        exact ⟨_, rfl⟩
    obtain ⟨next', hp⟩ := hp
    rw [List.foldlM_cons, hp]
    exact foldlM_ok hrest

end Table

/-! ### Lists of policies -/

/-- A policy without its ID, on which the table does not depend. -/
def nameless (p : Policy) : Policy := { p with id := 0 }

theorem ofClient_nameless (ps : List Policy) (client : ℤ) :
    ofClient (ps.map nameless) client = (ofClient ps client).map nameless := by
  unfold ofClient
  rw [List.find?_map]
  rfl

theorem entry_nameless (sub : List ℤ → List Filtering.Rule → Except Filtering.Err Matcher) (p : Policy) :
    (nameless p).entry sub = p.entry sub := rfl

theorem bind_entry_congr {sub : List ℤ → List Filtering.Rule → Except Filtering.Err Matcher} {ps qs : List Policy}
    (h : ps.map nameless = qs.map nameless) (client : ℤ) :
    (ofClient ps client).bind (Policy.entry sub) = (ofClient qs client).bind (Policy.entry sub) := by
  have hstrip : ∀ o : Option Policy, o.bind (Policy.entry sub) = (o.map nameless).bind (Policy.entry sub) := by
    intro o
    cases o with
    | none => rfl
    | some p => exact (entry_nameless sub p).symm
  rw [hstrip, hstrip (ofClient qs client), ← ofClient_nameless, ← ofClient_nameless, h]

/-! ### The invariant -/

/-- Only domains a rule may have. -/
def Policy.Valid (p : Policy) : Prop := (∀ d ∈ p.allow, Usable d) ∧ ∀ d ∈ p.block, Usable d

theorem extraRules_usable {p : Policy} (h : p.Valid) : ∀ r ∈ extraRules p, Usable r.domain := by
  intro r hr
  rcases List.mem_append.1 hr with hr | hr
  · obtain ⟨d, hd, rfl⟩ := List.mem_map.1 hr
    exact h.2 d hd
  · obtain ⟨d, hd, rfl⟩ := List.mem_map.1 hr
    exact h.1 d hd

/-- What the state is made of. -/
structure Sound (s : State) : Prop where
  static : ∀ r ∈ s.static, Usable r.domain
  clean : Clean s.published
  valid : ∀ p ∈ s.policies, p.Valid
  single : Single s.policies

/-- `Subset`, of the sources that are published. -/
def State.subset (s : State) : List ℤ → List Filtering.Rule → Except Filtering.Err Matcher :=
  Filtering.subset s.static s.published

/-- The table is what the policies and the published sources compile to. -/
def Good (s : State) : Prop :=
  ∃ c, compile s.subset s.policies = .ok c ∧ ∀ client, s.current.lookup client = c.lookup client

/-- A recompilation is to come: it was started, or its start was announced. -/
def Owed (s : State) : Prop := s.announcing = true ∨ 0 < s.spawned

theorem Sound.subset_ok {s : State} (h : Sound s) {p : Policy} (hp : p.Valid) :
    ∃ m, s.subset p.blocklists (extraRules p) = .ok m :=
  Filtering.subset_ok h.static h.clean (extraRules_usable hp) _

theorem Sound.compile_ok {s : State} (h : Sound s) {ps : List Policy} (hps : ∀ p ∈ ps, p.Valid) :
    ∃ c, compile s.subset ps = .ok c :=
  foldlM_ok fun p hp => h.subset_ok (hps p hp)

/-- The table is good when it has the entry of every policy. -/
theorem good_iff {s : State} (h : Sound s) :
    Good s ↔ ∀ client, s.current.lookup client = (ofClient s.policies client).bind (Policy.entry s.subset) := by
  obtain ⟨c, hc⟩ := h.compile_ok h.valid
  constructor
  · rintro ⟨c', hc', hall⟩ client
    rw [hall, compile_lookup h.single hc']
  · intro hall
    refine ⟨c, hc, fun client => ?_⟩
    rw [hall, compile_lookup h.single hc]

/-- What a thread with the lock of recompilations relies on: the others publish, and then owe a recompilation. -/
structure Rely (s s' : State) : Prop where
  static : s'.static = s.static
  rebuild : s'.rebuild = s.rebuild
  policies : s'.policies = s.policies
  current : s'.current = s.current
  published : s'.published = s.published ∨ Owed s'
  owed : Owed s → Owed s'
  clean : Clean s.published → Clean s'.published

theorem Rely.refl (s : State) : Rely s s := ⟨rfl, rfl, rfl, rfl, Or.inl rfl, id, id⟩

theorem Rely.trans (a b c : State) (h₁ : Rely a b) (h₂ : Rely b c) : Rely a c where
  static := h₂.static.trans h₁.static
  rebuild := h₂.rebuild.trans h₁.rebuild
  policies := h₂.policies.trans h₁.policies
  current := h₂.current.trans h₁.current
  published := by
    rcases h₂.published with h | h
    · rcases h₁.published with h' | h'
      · exact Or.inl (h.trans h')
      · exact Or.inr (h₂.owed h')
    · exact Or.inr h
  owed h := h₂.owed (h₁.owed h)
  clean h := h₂.clean (h₁.clean h)

/-- What a thread with the lock does not touch. -/
structure Guarantee (s s' : State) : Prop where
  sources : s'.sources = s.sources
  announcing : s'.announcing = s.announcing
  published : s'.published = s.published
  spawned : s'.spawned = s.spawned

/-- Thread `i` has the lock and the state is sound. -/
def Has (i : ℕ) (s : State) : Prop := Sound s ∧ s.rebuild = some i

theorem Has.rely {i : ℕ} {s s' : State} (h : Has i s) (hR : Rely s s') : Has i s' := by
  obtain ⟨hs, hr⟩ := h
  refine ⟨⟨?_, hR.clean hs.clean, ?_, ?_⟩, hR.rebuild.trans hr⟩
  · rw [hR.static]
    exact hs.static
  · rw [hR.policies]
    exact hs.valid
  · rw [hR.policies]
    exact hs.single

/-- What a thread has to bring about before it gives the lock back. -/
def Settled (s : State) : Prop := Owed s ∨ Good s

theorem subset_rely {s s' : State} (hR : Rely s s') : Owed s' ∨ s'.subset = s.subset := by
  rcases hR.published with h | h
  · right
    unfold State.subset
    rw [hR.static, h]
  · exact Or.inl h

theorem Settled.rely {s s' : State} (h : Settled s) (hR : Rely s s') : Settled s' := by
  rcases h with h | ⟨c, hc, hall⟩
  · exact Or.inl (hR.owed h)
  · rcases subset_rely hR with h | hsub
    · exact Or.inl h
    · refine Or.inr ⟨c, ?_, ?_⟩
      · rw [hsub, hR.policies]
        exact hc
      · rw [hR.current]
        exact hall

/-! ### Threads with the lock -/

/-- What a script brings about while it has the lock. -/
abbrev Brings (i : ℕ) {α : Type} (p : Script α) (Q : α → State → Prop) (s : State) : Prop :=
  p.relies (act i) Rely Guarantee (Has i) Q s

section

variable {i : ℕ} {α : Type} {s : State}

/-- A step of the script that touches no more than the table, the policies and the mutex. -/
theorem brings_call {op : Op} {k : Ans op → Script α} {Q : α → State → Prop} (h : Has i s)
    (hstep : ∀ s', Rely s s' → Has i s' → ∀ x a s'', act i op x s' = some (a, s'') →
      Guarantee s' s'' ∧ Brings i (k a) Q s'') : Brings i (.call op k) Q s :=
  fun s' hR => ⟨h.rely hR, fun x a s'' hact => hstep s' hR (h.rely hR) x a s'' hact⟩

theorem brings_done {a : α} {Q : α → State → Prop} (h : Has i s) (hQ : ∀ s', Rely s s' → Has i s' → Q a s') :
    Brings i (.done a) Q s := fun s' hR => ⟨h.rely hR, hQ s' hR (h.rely hR)⟩

/-- What `compile` has compiled, unless a recompilation is owed. -/
def Compiles (s : State) (ps : List Policy) (next : Compiled) (r : Except Filtering.Err Compiled) (s' : State) : Prop :=
  Rely s s' ∧ ∃ c, r = .ok c ∧ (Owed s' ∨ ps.foldlM (addPolicy s'.subset) next = .ok c)

/-- **The loop of `compile`**, while the sources may change under it. -/
theorem compileScript_brings {ps : List Policy} : ∀ {next : Compiled} {s : State}, Has i s → (∀ p ∈ ps, p.Valid) →
    Brings i (compileScript ps next) (Compiles s ps next) s := by
  induction ps with
  | nil =>
    intro next s h _
    exact brings_done h fun s' hR _ => ⟨hR, next, rfl, Or.inr rfl⟩
  | cons p ps ih =>
    intro next s h hps
    rw [List.forall_mem_cons] at hps
    unfold compileScript compileTurn
    -- what is compiled first is compiled alike later, unless a recompilation is owed by then
    have hfirst : ∀ {s₁ : State} {next' : Compiled} {r s'}, Rely s s₁ → addPolicy s₁.subset next p = .ok next' →
        Compiles s₁ ps next' r s' → Compiles s (p :: ps) next r s' := by
      rintro s₁ next' r s' hR hadd ⟨hR', c, rfl, hc⟩
      refine ⟨Rely.trans s s₁ s' hR hR', c, rfl, ?_⟩
      rcases hc with hc | hc
      · exact Or.inl hc
      · rcases subset_rely hR' with ho | hsub
        · exact Or.inl ho
        · right
          rw [List.foldlM_cons, hsub, hadd]
          rw [hsub] at hc
          exact hc
    cases hadds : p.adds with
    | nothing =>
      have hadd : addPolicy s.subset next p = .ok next := by
        unfold addPolicy
        rw [hadds]
      exact Prog.relies_mono (ih h hps.2) fun r s' _ hc => hfirst (Rely.refl s) hadd hc
    | unfiltered =>
      have hadd : addPolicy s.subset next p = .ok (next.insert p.clientID none) := by
        unfold addPolicy
        rw [hadds]
      exact Prog.relies_mono (ih h hps.2) fun r s' _ hc => hfirst (Rely.refl s) hadd hc
    | subset =>
      refine brings_call h fun s₁ hR h₁ x a s₂ hact => ?_
      obtain ⟨m, hm⟩ := h₁.1.subset_ok hps.1
      obtain ⟨rfl, rfl⟩ : a = .ok m ∧ s₂ = s₁ := by
        simp only [act, Option.some.injEq, Prod.mk.injEq] at hact
        exact ⟨hact.1.symm.trans hm, hact.2.symm⟩
      have hadd : addPolicy s₂.subset next p = .ok (next.insert p.clientID (some m)) := by
        unfold addPolicy
        rw [hadds]
        dsimp only
        rw [hm]
        rfl
      exact ⟨⟨rfl, rfl, rfl, rfl⟩, Prog.relies_mono (ih h₁ hps.2) fun r s' _ hc => hfirst hR hadd hc⟩

/-- `Owed` or not, a recompilation from the policies of the state settles it. -/
theorem recompileFrom_brings (h : Has i s) : Brings i (recompileFrom s.policies) (fun _ => Settled) s := by
  unfold recompileFrom
  refine Prog.relies_bind Rely.refl ?_
  refine Prog.relies_mono (compileScript_brings h h.1.valid) ?_
  rintro r s₁ h₁ ⟨hR, c, rfl, hc⟩
  refine brings_call h₁ fun s₂ hR₂ h₂ x a s₃ hact => ?_
  obtain rfl : { s₂ with current := c } = s₃ := by
    simp only [act, Option.some.injEq, Prod.mk.injEq] at hact
    exact hact.2
  refine ⟨⟨rfl, rfl, rfl, rfl⟩, brings_done ⟨⟨h₂.1.static, h₂.1.clean, h₂.1.valid, h₂.1.single⟩, h₂.2⟩ fun s₄ hR₄ _ => ?_⟩
  refine Settled.rely ?_ hR₄
  rcases hc with hc | hc
  · exact Or.inl (hR₂.owed hc)
  · rcases subset_rely hR₂ with ho | hsub
    · exact Or.inl ho
    · refine Or.inr ⟨c, ?_, fun _ => rfl⟩
      show compile s₂.subset s₂.policies = .ok c
      rw [hsub, hR₂.policies, hR.policies]
      exact hc

/-- The lock of the service around a script changes nothing for it. -/
theorem locked_brings {p : Script (Except Err Unit)} (h : Has i s)
    (hp : ∀ s', Rely s s' → Has i s' → Brings i p (fun _ => Settled) s') : Brings i (locked p) (fun _ => Settled) s := by
  unfold locked
  refine brings_call h fun s₁ hR h₁ x a s₂ hact => ?_
  obtain ⟨-, rfl⟩ : s₁.mu = none ∧ { s₁ with mu := some i } = s₂ := by
    simp only [act, Option.ite_none_right_eq_some, Option.some.injEq, Prod.mk.injEq] at hact
    exact ⟨hact.1, hact.2.2⟩
  have hR₁ : Rely s { s₁ with mu := some i } := ⟨hR.static, hR.rebuild, hR.policies, hR.current, hR.published, hR.owed, hR.clean⟩
  refine ⟨⟨rfl, rfl, rfl, rfl⟩, ?_⟩
  show Brings i (p >>= fun r => Prog.call Op.unlock fun _ => Prog.done r) _ _
  refine Prog.relies_bind Rely.refl ?_
  refine Prog.relies_mono (hp _ hR₁ (h.rely hR₁)) fun r s₃ h₃ hQ => ?_
  refine brings_call h₃ fun s₄ hR₄ h₄ y b s₅ hact' => ?_
  obtain rfl : { s₄ with mu := none } = s₅ := by
    simp only [act, Option.some.injEq, Prod.mk.injEq] at hact'
    exact hact'.2
  have hR₅ : Rely s₃ { s₄ with mu := none } :=
    ⟨hR₄.static, hR₄.rebuild, hR₄.policies, hR₄.current, hR₄.published, hR₄.owed, hR₄.clean⟩
  refine ⟨⟨rfl, rfl, rfl, rfl⟩, brings_done (h₃.rely hR₅) fun s₆ hR₆ _ => ?_⟩
  exact (hQ.rely hR₅).rely hR₆

/-- What the checks of a save have shown. -/
theorem checkSave_ok {ps : List Policy} {p : Policy} {index : Option ℕ} (h : checkSave ps p = .ok index) :
    ∀ x ∈ others ps index, x.clientID ≠ p.clientID := by
  unfold checkSave at h
  split at h
  · cases h
  split at h
  · cases h
  rename_i hothers
  split at h
  · cases h
  cases h
  intro x hx hc
  exact hothers (List.any_eq_true.2 ⟨x, hx, by simpa using hc⟩)

theorem mem_place {ps : List Policy} {p x : Policy} {index : Option ℕ} (h : x ∈ place ps p index) : x ∈ ps ∨ x = p := by
  cases index with
  | none => simpa [place] using h
  | some j => exact List.mem_or_eq_of_mem_set h

/-- A policy that meets no other of its client can be put into the list. -/
theorem single_place {ps : List Policy} {p : Policy} {index : Option ℕ} (hs : Single ps)
    (ho : ∀ x ∈ others ps index, x.clientID ≠ p.clientID) : Single (place ps p index) := by
  cases index with
  | none => exact Keyed.nodup_concat hs ho
  | some j =>
    by_cases hj : j < ps.length
    · -- the list is the others with the new policy at its place
      have hperm : (ps.set j p).Perm (ps.eraseIdx j ++ [p]) := by
        refine (List.set_perm_cons_eraseIdx hj p).trans ?_
        exact (List.perm_append_singleton p (ps.eraseIdx j)).symm
      have hnodup : Single (ps.eraseIdx j ++ [p]) := Keyed.nodup_concat (Keyed.nodup_eraseIdx hs j) ho
      exact (hperm.map Policy.clientID).nodup_iff.2 hnodup
    · show Single (ps.set j p)
      rw [List.set_eq_of_length_le (by omega)]
      exact hs

theorem place_nameless {ps : List Policy} {p q : Policy} (index : Option ℕ) (h : nameless p = nameless q) :
    (place ps p index).map nameless = (place ps q index).map nameless := by
  cases index with
  | none => simp [place, h]
  | some j =>
    show (ps.set j p).map nameless = (ps.set j q).map nameless
    rw [List.map_set, List.map_set, h]

/-- The end of a save: the policies are put in order and stored, then the table that was compiled from them. -/
theorem setStore_brings {ps qs : List Policy} {c : Compiled} (h : Has i s) (hsingle : Single ps) (hvalid : ∀ x ∈ ps, x.Valid)
    (hsame : ps.map nameless = qs.map nameless) (hc : Owed s ∨ compile s.subset qs = .ok c) :
    Brings i (Prog.call (.setPolicies (ps.insertionSort (fun a b => a.clientID ≤ b.clientID)))
      fun _ => Prog.call (.store c) fun _ => Prog.done (Except.ok () : Except Err Unit)) (fun _ => Settled) s := by
  have hperm := List.perm_insertionSort (fun a b : Policy => a.clientID ≤ b.clientID) ps
  have hsorted : Single (ps.insertionSort (fun a b => a.clientID ≤ b.clientID)) :=
    (hperm.map Policy.clientID).nodup_iff.2 hsingle
  generalize hsort : ps.insertionSort (fun a b => a.clientID ≤ b.clientID) = sorted at *
  have hqs : Single qs := by
    have hids : qs.map Policy.clientID = ps.map Policy.clientID := by
      have := congrArg (List.map Policy.clientID) hsame
      simpa [List.map_map, Function.comp_def, nameless] using this.symm
    unfold Single
    rw [hids]
    exact hsingle
  refine brings_call h fun s₁ hR₁ h₁ x a s₂ hact => ?_
  obtain rfl : { s₁ with policies := sorted } = s₂ := by
    simp only [act, Option.some.injEq, Prod.mk.injEq] at hact
    exact hact.2
  have hsound : Sound { s₁ with policies := sorted } :=
    ⟨h₁.1.static, h₁.1.clean, fun x hx => hvalid x (hperm.mem_iff.1 hx), hsorted⟩
  refine ⟨⟨rfl, rfl, rfl, rfl⟩, brings_call ⟨hsound, h₁.2⟩ fun s₃ hR₃ h₃ y b s₄ hact' => ?_⟩
  obtain rfl : { s₃ with current := c } = s₄ := by
    simp only [act, Option.some.injEq, Prod.mk.injEq] at hact'
    exact hact'.2
  have hsound₃ : Sound { s₃ with current := c } := ⟨h₃.1.static, h₃.1.clean, h₃.1.valid, h₃.1.single⟩
  refine ⟨⟨rfl, rfl, rfl, rfl⟩, brings_done ⟨hsound₃, h₃.2⟩ fun s₅ hR₅ _ => ?_⟩
  refine Settled.rely ?_ hR₅
  have ho : ∀ {t : State}, Owed t → Rely t s₁ ∨ t = s₁ → Owed { s₃ with current := c } := by
    rintro t ht (hR | rfl)
    · exact hR₃.owed (hR.owed ht)
    · exact hR₃.owed ht
  rcases hc with hc | hc
  · exact Or.inl (ho hc (Or.inl hR₁))
  rcases subset_rely hR₁ with h' | hsub₁
  · exact Or.inl (ho h' (Or.inr rfl))
  rcases subset_rely hR₃ with h' | hsub₃
  · exact Or.inl h'
  refine Or.inr ((good_iff hsound₃).2 fun client => ?_)
  show c.lookup client = (ofClient s₃.policies client).bind (Policy.entry s₃.subset)
  have hsub : s₃.subset = s.subset := hsub₃.trans hsub₁
  rw [compile_lookup hqs hc client, hR₃.policies, hsub]
  show _ = (ofClient sorted client).bind (Policy.entry s.subset)
  rw [← bind_entry_congr hsame client]
  unfold ofClient
  rw [Keyed.find?_perm hsingle hperm.symm client]

/-- **`save`, with the locks.** -/
theorem saveLocked_brings {p : Policy} (hp : p.Valid) (h : Has i s) (hset : Settled s) :
    Brings i (saveLocked p) (fun _ => Settled) s := by
  unfold saveLocked
  refine brings_call h fun s₁ hR₁ h₁ x a s₂ hact => ?_
  obtain ⟨rfl, rfl⟩ : a = s₁.policies ∧ s₂ = s₁ := by
    simp only [act, Option.some.injEq, Prod.mk.injEq] at hact
    exact ⟨hact.1.symm, hact.2.symm⟩
  have hset₁ : Settled s₂ := hset.rely hR₁
  refine ⟨⟨rfl, rfl, rfl, rfl⟩, ?_⟩
  dsimp only [Bind.bind, Prog.bind]
  cases hcheck : checkSave s₂.policies p with
  | error e => exact brings_done h₁ fun s' hR _ => hset₁.rely hR
  | ok index =>
    have hothers := checkSave_ok hcheck
    have hvalid : ∀ q : Policy, q.Valid → ∀ x ∈ place s₂.policies q index, x.Valid := by
      intro q hq x hx
      rcases mem_place hx with hx | rfl
      · exact h₁.1.valid x hx
      · exact hq
    refine Prog.relies_bind Rely.refl ?_
    refine Prog.relies_mono (compileScript_brings h₁ (hvalid p hp)) ?_
    rintro r s₃ h₃ ⟨hR₃, c, rfl, hc⟩
    refine brings_call h₃ fun s₄ hR₄ h₄ y b s₅ hact' => ?_
    obtain ⟨rfl, rfl⟩ : b = y.map (fun id => if p.id = 0 then { p with id := id } else p) ∧ s₅ = s₄ := by
      simp only [act, Option.some.injEq, Prod.mk.injEq] at hact'
      exact ⟨hact'.1.symm, hact'.2.symm⟩
    refine ⟨⟨rfl, rfl, rfl, rfl⟩, ?_⟩
    have hR : Rely s₂ s₅ := hR₃.trans _ _ _ hR₄
    cases y with
    | error e => exact brings_done h₄ fun s' hR' _ => (hset₁.rely hR).rely hR'
    | ok id =>
      obtain ⟨saved, hsaved⟩ : ∃ saved, saved = if p.id = 0 then { p with id := id } else p := ⟨_, rfl⟩
      have hnameless : nameless saved = nameless p := by
        rw [hsaved]
        split <;> rfl
      have hclient : (nameless saved).clientID = (nameless p).clientID := by rw [hnameless]
      have hsvalid : saved.Valid := by
        rw [hsaved]
        split
        · exact hp
        · exact hp
      have hsingle : Single (place s₂.policies saved index) := single_place h₁.1.single fun x hx hc =>
        hothers x hx (hc.trans hclient)
      have hc' : Owed s₅ ∨ compile s₅.subset (place s₂.policies p index) = .ok c := by
        rcases hc with hc | hc
        · exact Or.inl (hR₄.owed hc)
        · rcases subset_rely hR₄ with ho | hsub
          · exact Or.inl ho
          · rw [hsub]
            exact Or.inr hc
      have hplaced := @place_nameless s₂.policies _ _ index hnameless
      dsimp only [Except.map]
      rw [← hsaved]
      exact setStore_brings h₄ hsingle (hvalid saved hsvalid) hplaced hc'

/-- Policies are dropped and the rest is compiled. -/
theorem drop_brings {rest : List Policy} (h : Has i s) (hsub : rest.Sublist s.policies) :
    Brings i (Prog.call (.setPolicies rest) fun _ => recompileFrom rest) (fun _ => Settled) s := by
  refine brings_call h fun s₁ hR₁ h₁ x a s₂ hact => ?_
  obtain rfl : { s₁ with policies := rest } = s₂ := by
    simp only [act, Option.some.injEq, Prod.mk.injEq] at hact
    exact hact.2
  rw [← hR₁.policies] at hsub
  have hsound : Sound { s₁ with policies := rest } :=
    ⟨h₁.1.static, h₁.1.clean, fun p hp => h₁.1.valid p (hsub.subset hp), (hsub.map Policy.clientID).nodup h₁.1.single⟩
  have hhas : Has i { s₁ with policies := rest } := ⟨hsound, h₁.2⟩
  exact ⟨⟨rfl, rfl, rfl, rfl⟩, recompileFrom_brings hhas⟩

theorem policies_call {k : List Policy → Script (Except Err Unit)} (h : Has i s) (hset : Settled s)
    (hk : ∀ s', Has i s' → Settled s' → Brings i (k s'.policies) (fun _ => Settled) s') :
    Brings i (Prog.call .policies k) (fun _ => Settled) s := by
  refine brings_call h fun s₁ hR₁ h₁ x a s₂ hact => ?_
  obtain ⟨rfl, rfl⟩ : a = s₁.policies ∧ s₂ = s₁ := by
    simp only [act, Option.some.injEq, Prod.mk.injEq] at hact
    exact ⟨hact.1.symm, hact.2.symm⟩
  exact ⟨⟨rfl, rfl, rfl, rfl⟩, hk s₂ h₁ (hset.rely hR₁)⟩

/-- **`Delete`, with the locks.** -/
theorem deleteLocked_brings {id : ℤ} (h : Has i s) (hset : Settled s) :
    Brings i (deleteLocked id) (fun _ => Settled) s := by
  refine policies_call h hset fun s₁ h₁ hset₁ => ?_
  dsimp only [Bind.bind, Prog.bind]
  cases hfind : s₁.policies.findIdx? (fun x => x.id = id) with
  | none => exact brings_done h₁ fun s' hR _ => hset₁.rely hR
  | some j =>
    refine brings_call h₁ fun s₂ hR₂ h₂ x a s₃ hact => ?_
    obtain ⟨rfl, rfl⟩ : a = x.map (fun _ => ()) ∧ s₃ = s₂ := by
      simp only [act, Option.some.injEq, Prod.mk.injEq] at hact
      exact ⟨hact.1.symm, hact.2.symm⟩
    refine ⟨⟨rfl, rfl, rfl, rfl⟩, ?_⟩
    cases x with
    | error e => exact brings_done h₂ fun s' hR _ => (hset₁.rely hR₂).rely hR
    | ok _ =>
      refine drop_brings h₂ ?_
      rw [hR₂.policies]
      exact List.eraseIdx_sublist _ _

/-- **`ForgetClient`, with the locks.** -/
theorem forgetLocked_brings {client : ℤ} (h : Has i s) (hset : Settled s) :
    Brings i (forgetLocked client) (fun _ => Settled) s := by
  refine policies_call h hset fun s₁ h₁ hset₁ => ?_
  dsimp only [Bind.bind, Prog.bind]
  split
  · exact brings_done h₁ fun s' hR _ => hset₁.rely hR
  · exact drop_brings h₁ List.filter_sublist

/-- **`Recompile`, with the lock.** It settles any state. -/
theorem recompileLocked_brings (h : Has i s) : Brings i recompileLocked (fun _ => Settled) s := by
  unfold recompileLocked
  refine brings_call h fun s₁ _ h₁ x a s₂ hact => ?_
  obtain ⟨-, rfl⟩ : s₁.mu = none ∧ { s₁ with mu := some i } = s₂ := by
    simp only [act, Option.ite_none_right_eq_some, Option.some.injEq, Prod.mk.injEq] at hact
    exact ⟨hact.1, hact.2.2⟩
  have hhas : Has i { s₁ with mu := some i } := ⟨⟨h₁.1.static, h₁.1.clean, h₁.1.valid, h₁.1.single⟩, h₁.2⟩
  refine ⟨⟨rfl, rfl, rfl, rfl⟩, brings_call hhas fun s₃ _ h₃ y b s₄ hact' => ?_⟩
  obtain ⟨rfl, rfl⟩ : b = s₃.policies ∧ s₄ = s₃ := by
    simp only [act, Option.some.injEq, Prod.mk.injEq] at hact'
    exact ⟨hact'.1.symm, hact'.2.symm⟩
  refine ⟨⟨rfl, rfl, rfl, rfl⟩, brings_call h₃ fun s₅ hR₅ h₅ z c s₆ hact'' => ?_⟩
  obtain rfl : { s₅ with mu := none } = s₆ := by
    simp only [act, Option.some.injEq, Prod.mk.injEq] at hact''
    exact hact''.2
  have hhas₅ : Has i { s₅ with mu := none } := ⟨⟨h₅.1.static, h₅.1.clean, h₅.1.valid, h₅.1.single⟩, h₅.2⟩
  refine ⟨⟨rfl, rfl, rfl, rfl⟩, ?_⟩
  rw [← hR₅.policies]
  exact recompileFrom_brings hhas₅

end

/-! ### What a save accepts -/

theorem domains_usable {label : String} : ∀ {raws out out' : List Str}, (∀ d ∈ out, Usable d) →
    domains label raws out = .ok out' → ∀ d ∈ out', Usable d
  | [], out, out', hout, h => by
    cases h
    exact hout
  | raw :: raws, out, out', hout, h => by
    unfold domains at h
    split at h
    · exact domains_usable hout h
    split at h
    · cases h
    rename_i domain hname
    refine domains_usable ?_ h
    split
    · exact hout
    · intro d hd
      rcases List.mem_append.1 hd with hd | hd
      · exact hout d hd
      · rw [List.mem_singleton.1 hd, Usable, Filtering.name_name hname]
        rfl

theorem normalize_valid {p q : Policy} (h : normalize p = .ok q) : q.Valid := by
  unfold normalize at h
  split at h
  · cases h
  split at h
  · cases h
    exact ⟨by simp, by simp⟩
  split at h
  · cases h
  obtain ⟨blocklists, -, h⟩ := bind_eq_ok.1 h
  obtain ⟨allow, hallow, h⟩ := bind_eq_ok.1 h
  obtain ⟨block, hblock, h⟩ := bind_eq_ok.1 h
  split at h
  · cases h
  cases h
  exact ⟨domains_usable (by simp) hallow, domains_usable (by simp) hblock⟩

/-! ### Threads -/

/-- The end of a script that has the lock of recompilations. -/
def release (r : Except Err Unit) : Script (Except Err Unit) := Prog.call .unlockRebuild fun _ => Prog.done r

/-- A thread without a lock: it is done, or waits for a lock and settles the state once it has it. -/
inductive Idle : Script (Except Err Unit) → Prop
  | done (r : Except Err Unit) : Idle (.done r)
  | locks (p : Script (Except Err Unit))
      (h : ∀ i s, Has i s → Settled s → Brings i p (fun _ => Settled) s) :
      Idle (.call .lockRebuild fun _ => p >>= release)
  | takes (p : Script (Except Err Unit)) (h : ∀ i s, Has i s → Brings i p (fun _ => Settled) s) :
      Idle (.call .take fun _ => p >>= release)
  | publishes (snapshot : Publication) : Idle (body (.publish snapshot))

theorem idle_locked {p : Script (Except Err Unit)}
    (h : ∀ i s, Has i s → Settled s → Brings i p (fun _ => Settled) s) : Idle (rebuilding .lockRebuild (locked p)) :=
  Idle.locks (locked p) fun i _ hs hset => locked_brings hs fun s' hR h' => h i s' h' (hset.rely hR)

/-- **Every call starts without a lock.** -/
theorem idle_body (c : Call) : Idle (body c) := by
  have hsave : ∀ p, Idle (save p) := by
    intro p
    unfold save
    split
    · exact Idle.done _
    · rename_i q hq
      exact idle_locked fun i s h hset => saveLocked_brings (normalize_valid hq) h hset
  cases c with
  | create p => exact hsave _
  | update id p =>
    show Idle (if id < 1 then Prog.done (.error .notFound) else save { p with id := id })
    split
    · exact Idle.done _
    · exact hsave _
  | delete id => exact idle_locked fun i s h hset => deleteLocked_brings h hset
  | forget client => exact idle_locked fun i s h hset => forgetLocked_brings h hset
  | recompile => exact Idle.takes recompileLocked fun i s h => recompileLocked_brings h
  | publish snapshot => exact Idle.publishes snapshot

/-- The steps of a publication that has its lock. -/
inductive Publishing (s : State) : Script (Except Err Unit) → Prop
  | stores (snapshot : Publication) : Publishing s (.call (.publish snapshot) fun _ => .call .spawn fun _ =>
      .call .unlockSources fun _ => .done (.ok ()))
  | spawns : Publishing s (.call .spawn fun _ => .call .unlockSources fun _ => .done (.ok ()))
  | unlocks (h : s.announcing = false) : Publishing s (.call .unlockSources fun _ => .done (.ok ()))

/-- Where a thread is. -/
inductive Stage (s : State) (i : ℕ) : Script (Except Err Unit) → Prop
  | idle {p : Script (Except Err Unit)} (hr : s.rebuild ≠ some i) (hs : s.sources ≠ some i) (h : Idle p) : Stage s i p
  | busy (p : Script (Except Err Unit)) (hr : s.rebuild = some i) (hs : s.sources ≠ some i)
      (h : Brings i p (fun _ => Settled) s) : Stage s i (p >>= release)
  | publishing {p : Script (Except Err Unit)} (hr : s.rebuild ≠ some i) (hs : s.sources = some i)
      (h : Publishing s p) : Stage s i p

/-- What holds of the state whenever no thread takes a step. -/
structure Calm (s : State) : Prop where
  sound : Sound s
  settled : s.rebuild = none → Settled s
  announcing : s.announcing = true → s.sources ≠ none

/-- What a thread holds, it holds after a step of another one on which it can rely. -/
theorem Stage.frame {s s' : State} {j : ℕ} {q : Script (Except Err Unit)} (h : Stage s j q)
    (hr : s'.rebuild = some j ↔ s.rebuild = some j) (hs : s'.sources = some j ↔ s.sources = some j)
    (hann : s.sources = some j → s'.announcing = s.announcing) (hrely : s.rebuild = some j → Rely s s') : Stage s' j q := by
  cases h with
  | idle hr' hs' h => exact .idle (fun h' => hr' (hr.1 h')) (fun h' => hs' (hs.1 h')) h
  | busy p hr' hs' h =>
    exact .busy p (hr.2 hr') (fun h' => hs' (hs.1 h')) (Prog.relies_stable Rely.trans h (hrely hr'))
  | publishing hr' hs' h =>
    refine .publishing (fun h' => hr' (hr.1 h')) (hs.2 hs') ?_
    cases h with
    | stores snapshot => exact .stores snapshot
    | spawns => exact .spawns
    | unlocks hno => exact .unlocks ((hann hs').trans hno)

section

variable {s s' : State} {i : ℕ} {x : Outside}

/-- A thread takes the lock of recompilations, as an operation or as a recompilation that was started. -/
theorem turn_acquire {p : Script (Except Err Unit)} (hC : Calm s) (hsrc : s.sources ≠ some i) (hfree : s.rebuild = none)
    {spawned : ℕ} (hs' : s' = { s with rebuild := some i, spawned := spawned })
    (hp : Has i s' → Brings i p (fun _ => Settled) s') :
    Calm s' ∧ Stage s' i (p >>= release) ∧ ∀ j q, j ≠ i → Stage s j q → Stage s' j q := by
  subst hs'
  have hsound : Sound { s with rebuild := some i, spawned := spawned } :=
    ⟨hC.sound.static, hC.sound.clean, hC.sound.valid, hC.sound.single⟩
  refine ⟨⟨hsound, fun h => (by cases h), hC.announcing⟩, .busy p rfl hsrc (hp ⟨hsound, rfl⟩), ?_⟩
  intro j q hji hq
  refine hq.frame ?_ Iff.rfl (fun _ => rfl) fun h => ?_
  · rw [hfree]
    constructor
    · intro h
      exact absurd (Option.some.inj h).symm hji
    · intro h
      cases h
  · rw [hfree] at h
    cases h

/-- A step of a thread that has the lock. -/
theorem turn_busy {op : Op} {k : Ans op → Script (Except Err Unit)} {a : Ans op} {p : Script (Except Err Unit)}
    (hC : Calm s) (hr : s.rebuild = some i) (hsrc : s.sources ≠ some i) (h : Brings i p (fun _ => Settled) s)
    (hp : p >>= release = .call op k) (hact : act i op x s = some (a, s')) :
    Calm s' ∧ Stage s' i (k a) ∧ ∀ j q, j ≠ i → Stage s j q → Stage s' j q := by
  cases p with
  | done r =>
    -- it gives the lock back, and has settled the state
    cases hp
    obtain rfl : { s with rebuild := none } = s' := by
      simp only [act, Option.some.injEq, Prod.mk.injEq] at hact
      exact hact.2
    obtain ⟨-, hset⟩ := h s (Rely.refl s)
    have hset' : Settled { s with rebuild := none } := hset
    refine ⟨⟨⟨hC.sound.static, hC.sound.clean, hC.sound.valid, hC.sound.single⟩, fun _ => hset', hC.announcing⟩,
      .idle (by simp) hsrc (Idle.done _), ?_⟩
    intro j q hji hq
    refine hq.frame ?_ Iff.rfl (fun _ => rfl) fun h => ?_
    · rw [hr]
      constructor
      · intro h
        cases h
      · intro h
        exact absurd (Option.some.inj h).symm hji
    · rw [hr] at h
      exact absurd (Option.some.inj h).symm hji
  | call op' k' =>
    cases hp
    obtain ⟨-, hstep⟩ := h s (Rely.refl s)
    obtain ⟨hG, hrest⟩ := hstep x a s' hact
    obtain ⟨hsound, hr'⟩ := Prog.relies_now Rely.refl hrest
    refine ⟨⟨hsound, fun h => absurd (hr'.symm.trans h) (by simp), ?_⟩, .busy (k' a) hr' (by rw [hG.sources]; exact hsrc) hrest, ?_⟩
    · rw [hG.announcing, hG.sources]
      exact hC.announcing
    · intro j q hji hq
      refine hq.frame (by rw [hr, hr']) (by rw [hG.sources]) (fun _ => hG.announcing) fun h => ?_
      rw [hr] at h
      exact absurd (Option.some.inj h).symm hji

/-- A step of a publication that has the lock of the sources. -/
theorem turn_publishing {op : Op} {k : Ans op → Script (Except Err Unit)} {a : Ans op} (hC : Calm s)
    (hr : s.rebuild ≠ some i) (hsrc : s.sources = some i) (h : Publishing s (.call op k))
    (hact : act i op x s = some (a, s')) :
    Calm s' ∧ Stage s' i (k a) ∧ ∀ j q, j ≠ i → Stage s j q → Stage s' j q := by
  have hother : ∀ {j : ℕ}, j ≠ i → s.sources ≠ some j := by
    intro j hji hj
    rw [hsrc] at hj
    exact hji (Option.some.inj hj).symm
  cases h with
  | stores snapshot =>
    obtain rfl : { s with published := snapshot.sources, announcing := true } = s' := by
      simp only [act, Option.some.injEq, Prod.mk.injEq] at hact
      exact hact.2
    have howed : Owed { s with published := snapshot.sources, announcing := true } := Or.inl rfl
    refine ⟨⟨⟨hC.sound.static, snapshot.clean, hC.sound.valid, hC.sound.single⟩, fun _ => Or.inl howed, ?_⟩,
      .publishing hr hsrc .spawns, ?_⟩
    · intro _
      show s.sources ≠ none
      rw [hsrc]
      simp
    · intro j q hji hq
      exact hq.frame Iff.rfl Iff.rfl (fun hj => absurd hj (hother hji)) fun _ =>
        ⟨rfl, rfl, rfl, rfl, Or.inr howed, fun _ => howed, fun _ => snapshot.clean⟩
  | spawns =>
    obtain rfl : { s with spawned := s.spawned + 1, announcing := false } = s' := by
      simp only [act, Option.some.injEq, Prod.mk.injEq] at hact
      exact hact.2
    have howed : Owed { s with spawned := s.spawned + 1, announcing := false } := Or.inr (Nat.succ_pos _)
    refine ⟨⟨⟨hC.sound.static, hC.sound.clean, hC.sound.valid, hC.sound.single⟩, fun _ => Or.inl howed,
      fun h => by cases h⟩, .publishing hr hsrc (.unlocks rfl), ?_⟩
    intro j q hji hq
    exact hq.frame Iff.rfl Iff.rfl (fun hj => absurd hj (hother hji)) fun _ =>
      ⟨rfl, rfl, rfl, rfl, Or.inl rfl, fun _ => howed, id⟩
  | unlocks hno =>
    obtain rfl : { s with sources := none } = s' := by
      simp only [act, Option.some.injEq, Prod.mk.injEq] at hact
      exact hact.2
    refine ⟨⟨⟨hC.sound.static, hC.sound.clean, hC.sound.valid, hC.sound.single⟩, fun hf => hC.settled hf, ?_⟩,
      .idle hr (by simp) (Idle.done _), ?_⟩
    · intro h
      have h' : s.announcing = true := h
      rw [hno] at h'
      cases h'
    · intro j q hji hq
      refine hq.frame Iff.rfl ?_ (fun hj => absurd hj (hother hji)) fun _ => ⟨rfl, rfl, rfl, rfl, Or.inl rfl, id, id⟩
      constructor
      · intro h
        cases h
      · intro h
        exact absurd h (hother hji)

/-- **One step of a thread.** -/
theorem turn {op : Op} {k : Ans op → Script (Except Err Unit)} {a : Ans op} (hC : Calm s) (hT : Stage s i (.call op k))
    (hact : act i op x s = some (a, s')) :
    Calm s' ∧ Stage s' i (k a) ∧ ∀ j q, j ≠ i → Stage s j q → Stage s' j q := by
  generalize hp : (Prog.call op k : Script (Except Err Unit)) = p at hT
  cases hT with
  | busy q hr hs h => exact turn_busy hC hr hs h hp.symm hact
  | publishing hr hs h =>
    subst hp
    exact turn_publishing hC hr hs h hact
  | idle hr hs h =>
    cases h with
    | done r => cases hp
    | locks q hq =>
      cases hp
      simp only [act, Option.ite_none_right_eq_some, Option.some.injEq, Prod.mk.injEq] at hact
      obtain ⟨hfree, -, hs'⟩ := hact
      have hset : Settled s' := by
        rw [← hs']
        exact hC.settled hfree
      exact turn_acquire hC hs hfree hs'.symm fun hhas => hq i s' hhas hset
    | takes q hq =>
      cases hp
      simp only [act, Option.ite_none_right_eq_some, Option.some.injEq, Prod.mk.injEq] at hact
      obtain ⟨⟨hfree, -⟩, -, hs'⟩ := hact
      exact turn_acquire hC hs hfree hs'.symm fun hhas => hq i s' hhas
    | publishes snapshot =>
      cases hp
      simp only [act, Option.ite_none_right_eq_some, Option.some.injEq, Prod.mk.injEq] at hact
      obtain ⟨hfree, -, rfl⟩ := hact
      refine ⟨⟨⟨hC.sound.static, hC.sound.clean, hC.sound.valid, hC.sound.single⟩, fun hf => hC.settled hf, by simp⟩,
        .publishing hr rfl (.stores snapshot), ?_⟩
      intro j q hji hq
      refine hq.frame Iff.rfl ?_ (fun _ => rfl) fun _ => ⟨rfl, rfl, rfl, rfl, Or.inl rfl, id, id⟩
      rw [hfree]
      constructor
      · intro h
        exact absurd (Option.some.inj h).symm hji
      · intro h
        cases h

end

/-! ### Runs -/

/-- The locks are held by threads that are there. -/
structure Held (w : System) : Prop where
  calm : w.Holds Calm (fun s i _ p => Stage s i p)
  rebuild : ∀ i, w.shared.rebuild = some i → i < w.threads.length
  sources : ∀ i, w.shared.sources = some i → i < w.threads.length

/-- A step gives a lock to no thread but the one that takes it. -/
theorem act_locks {s s' : State} {i : ℕ} {op : Op} {x : Outside} {a : Ans op} (h : act i op x s = some (a, s')) :
    (s'.rebuild = s.rebuild ∨ s'.rebuild = none ∨ s'.rebuild = some i) ∧
      (s'.sources = s.sources ∨ s'.sources = none ∨ s'.sources = some i) := by
  cases op <;> simp only [act, Option.ite_none_right_eq_some, Option.some.injEq, Prod.mk.injEq] at h
  all_goals
    obtain ⟨-, -, rfl⟩ := h
    simp

theorem step_held {w w' : System} {e : Turn Call Outside} (h : Held w) (hs : w.step e = some w') : Held w' := by
  have hcalm : w'.Holds Calm (fun s i _ p => Stage s i p) := by
    refine Pool.step_holds ?_ ?_ h.calm hs
    · intro c _
      refine .idle ?_ ?_ (idle_body c)
      · intro hr
        exact absurd (h.rebuild _ hr) (lt_irrefl _)
      · intro hr
        exact absurd (h.sources _ hr) (lt_irrefl _)
    · intro i x c op k a s' _ _ hC hT hact
      obtain ⟨h1, h2, h3⟩ := turn hC hT hact
      exact ⟨h1, h2, fun j _ q hji hq => h3 j q hji hq⟩
  cases e with
  | start c =>
    simp only [System.step, Pool.step, Option.some.injEq] at hs
    subst hs
    refine ⟨hcalm, fun i hi => ?_, fun i hi => ?_⟩
    · have hlt := h.rebuild i hi
      simp only [List.length_append]
      omega
    · have hlt := h.sources i hi
      simp only [List.length_append]
      omega
  | turn j x =>
    obtain ⟨c, op, k, a, s', hj, hact, rfl⟩ := Pool.step_turn hs
    have hlt : j < w.threads.length := (List.getElem?_eq_some_iff.1 hj).1
    obtain ⟨hr, hsrc⟩ := act_locks hact
    refine ⟨hcalm, fun i hi => ?_, fun i hi => ?_⟩
    · rw [List.length_set]
      rcases hr with hr | hr | hr
      · exact h.rebuild i (hr.symm.trans hi)
      · cases hr.symm.trans hi
      · cases hr.symm.trans hi
        exact hlt
    · rw [List.length_set]
      rcases hsrc with hr | hr | hr
      · exact h.sources i (hr.symm.trans hi)
      · cases hr.symm.trans hi
      · cases hr.symm.trans hi
        exact hlt

/-- No operation is under way and no recompilation waits to begin. -/
def Quiet (w : System) : Prop := (∀ c p, (c, p) ∈ w.threads → ∃ r, p = .done r) ∧ w.shared.spawned = 0

/-- A quiet system has no lock taken, so the state is settled, and it owes nothing. -/
theorem good_of_quiet {w : System} (h : Held w) (hq : Quiet w) : Good w.shared := by
  obtain ⟨hdone, hspawned⟩ := hq
  have hstage : ∀ i, i < w.threads.length → ∃ r, Stage w.shared i (.done r) := by
    intro i hi
    obtain ⟨c, p, hcp⟩ : ∃ c p, w.threads[i] = (c, p) := ⟨_, _, rfl⟩
    have hget : w.threads[i]? = some (c, p) := by rw [List.getElem?_eq_getElem hi, hcp]
    obtain ⟨r, rfl⟩ := hdone c p (List.mem_of_getElem? hget)
    exact ⟨r, h.calm.threads i c _ hget⟩
  -- a thread that is done is idle
  have hidle : ∀ i r, Stage w.shared i (.done r) → w.shared.rebuild ≠ some i ∧ w.shared.sources ≠ some i := by
    intro i r hs
    generalize hp : (Prog.done r : Script (Except Err Unit)) = p at hs
    cases hs with
    | idle hr hs _ => exact ⟨hr, hs⟩
    | busy q hr hs _ => cases q <;> cases hp
    | publishing hr hs hpub =>
      subst hp
      cases hpub
  have hfree : w.shared.rebuild = none := by
    cases hr : w.shared.rebuild with
    | none => rfl
    | some i =>
      obtain ⟨r, hs⟩ := hstage i (h.rebuild i hr)
      exact absurd hr (hidle i r hs).1
  have hsources : w.shared.sources = none := by
    cases hr : w.shared.sources with
    | none => rfl
    | some i =>
      obtain ⟨r, hs⟩ := hstage i (h.sources i hr)
      exact absurd hr (hidle i r hs).2
  rcases h.calm.shared.settled hfree with (hann | hspawn) | hgood
  · exact absurd hsources (h.calm.shared.announcing hann)
  · omega
  · exact hgood

/-- `NewService`, over policies as the table holds them, next to a blocklist service. -/
structure Starts (s : State) : Prop where
  sound : Sound s
  compiled : compile s.subset s.policies = .ok s.current
  rebuild : s.rebuild = none
  sources : s.sources = none
  announcing : s.announcing = false

/-- **The policies converge.** In every run a client has at most one policy, and when no operation and no recompilation is
under way the table is what the policies compile to against the published sources, so that every query is decided by it. -/
theorem converges {s : State} (hs : Starts s) {es : List (Turn Call Outside)} {w : System}
    (hrun : run System.step { shared := s } es = some w) :
    Single w.shared.policies ∧ (Quiet w → ∃ c, compile w.shared.subset w.shared.policies = .ok c ∧
      (∀ client, w.shared.current.lookup client = c.lookup client) ∧
      ∀ global client name, blockedFor w.shared.current global client name = blockedFor c global client name) := by
  have hstart : Held { shared := s } := by
    refine ⟨⟨⟨hs.sound, fun _ => Or.inr ⟨_, hs.compiled, fun _ => rfl⟩, ?_⟩, by simp⟩, ?_, ?_⟩
    · intro h
      rw [hs.announcing] at h
      cases h
    · intro i h
      have h' : s.rebuild = some i := h
      rw [hs.rebuild] at h'
      cases h'
    · intro i h
      have h' : s.sources = some i := h
      rw [hs.sources] at h'
      cases h'
  have hheld : Held w := run_keeps (P := Held) (fun w e w' h hs => step_held h hs) hrun hstart
  refine ⟨hheld.calm.shared.sound.single, fun hq => ?_⟩
  obtain ⟨c, hc, hall⟩ := good_of_quiet hheld hq
  refine ⟨c, hc, hall, fun global client name => ?_⟩
  unfold blockedFor
  cases client with
  | none => rfl
  | some client => rw [Option.bind_some, Option.bind_some, hall]

/-! ### One client and one list -/

namespace Home

/-- The children's tablet has a list of its own. -/
def tablet : Policy := ⟨1, 1, modeCustom, [1], [], [], true⟩

def base : State := { static := [], policies := [tablet], current := ∅, published := [] }

def start : State := { base with current := ((compile base.subset [tablet]).toOption).getD ∅ }

theorem sound {c : Compiled} : Sound { base with current := c } where
  static := by simp [base]
  clean := by simp [base, Clean]
  valid := by simp [base, tablet, Policy.Valid]
  single := by simp [base, Single]

theorem starts : Starts start where
  sound := sound
  compiled := by
    have hvalid : ∀ p ∈ [tablet], p.Valid := by simp [tablet, Policy.Valid]
    obtain ⟨c, hc⟩ := (sound (c := ∅)).compile_ok hvalid
    have hc' : compile base.subset [tablet] = .ok c := hc
    have hcur : start.current = c := by
      unfold start
      rw [hc']
      rfl
    rw [hcur]
    exact hc'
  rebuild := rfl
  sources := rfl
  announcing := rfl

/-- The list is downloaded. -/
def games : Publication where
  sources := [{ id := 1, name := "games".toList, url := [], enabled := false, domains := ["t.example".toList] }]
  clean := by
    intro x hx d hd
    obtain rfl := List.mem_singleton.1 hx
    obtain rfl := List.mem_singleton.1 hd
    show (Filtering.name "t.example".toList).isSome = true
    decide +kernel

/-- It is published, and then the policies are compiled again. -/
def turns : List (Turn Call Outside) :=
  .start (.publish games) :: List.replicate 4 (.turn 0 (.ok 0)) ++
    .start .recompile :: List.replicate 7 (.turn 1 (.ok 0))

def isDone : Script (Except Err Unit) → Bool
  | .done _ => true
  | .call _ _ => false

end Home

open Home in
theorem converges_tablet : ∃ w, run System.step { shared := Home.start } turns = some w ∧
    blockedFor Home.start.current (fun _ => false) (some 1) "a.t.example.".toList = false ∧
    blockedFor w.shared.current (fun _ => false) (some 1) "a.t.example.".toList = true ∧
    Single w.shared.policies ∧ ∃ c, compile w.shared.subset w.shared.policies = .ok c ∧
      (∀ client, w.shared.current.lookup client = c.lookup client) ∧
      ∀ global client name, blockedFor w.shared.current global client name = blockedFor c global client name := by
  have hrun : (run System.step { shared := Home.start } turns).any (fun w =>
      w.threads.all (fun t => isDone t.2) && w.shared.spawned == 0 &&
        blockedFor w.shared.current (fun _ => false) (some 1) "a.t.example.".toList) = true := by
    decide +kernel
  obtain ⟨w, hw, htest⟩ := (Option.any_eq_true _ _).1 hrun
  rw [Bool.and_eq_true, Bool.and_eq_true, List.all_eq_true, beq_iff_eq] at htest
  obtain ⟨⟨hdone, hspawned⟩, hblocked⟩ := htest
  have hquiet : Quiet w := by
    refine ⟨fun c p hp => ?_, hspawned⟩
    have htest := hdone (c, p) hp
    cases p with
    | done r => exact ⟨r, rfl⟩
    | call op k => cases htest
  obtain ⟨hsingle, hgood⟩ := converges starts hw
  exact ⟨w, hw, by decide +kernel, hblocked, hsingle, hgood hquiet⟩

end Velora.Policies
