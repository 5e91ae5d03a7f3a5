import Mathlib

/-!
# Programs of atomic steps

A program of the type `Prog Op Ans α` is done with a result or calls an operation and goes on with its answer. What an
operation does is not part of the program: a *machine* is a partial step function, a run of it is a list of events, and a
*pool* is the machine in which any number of programs take turns on a shared state, in any order.

* `Prog.wp`: what a program establishes when it runs alone, whatever the outside answers; `Prog.exec` is the run of a
  program alone in which the outside makes one choice throughout, and `Prog.always` also says what holds when it is stopped
  before its end; `Prog.obeys` is about what it calls and in which order.
* `run_invariant`: what every step that meets a condition keeps, every run whose steps meet it keeps.
* `Pool.run_holds`: the same for a pool, from an assertion for each thread that its own turns advance and the turns of the
  other threads do not disturb.
* `Monitor.run_serial`: programs that run under one lock. In every run the calls that are done form a sequence in which
  each starts in the state the one before has left, and each has done what it does when it runs alone;
  `Monitor.step_along` is about the state while a call is under way.
-/

namespace Velora.Lib

/-- A program. -/
inductive Prog (Op : Type) (Ans : Op → Type) (α : Type) : Type
  | done (a : α)
  | call (op : Op) (k : Ans op → Prog Op Ans α)

namespace Prog

variable {Op : Type} {Ans : Op → Type} {α β : Type}

def bind : Prog Op Ans α → (α → Prog Op Ans β) → Prog Op Ans β
  | .done a, f => f a
  | .call op k, f => .call op (fun x => (k x).bind f)

instance : Monad (Prog Op Ans) where
  pure := .done
  bind := Prog.bind

/-- The program that makes one call and returns the answer. -/
def ask (op : Op) : Prog Op Ans (Ans op) := .call op .done

@[simp] theorem pure_eq (a : α) : (pure a : Prog Op Ans α) = .done a := rfl

@[simp] theorem done_bind (a : α) (f : α → Prog Op Ans β) : (Prog.done a : Prog Op Ans α) >>= f = f a := rfl

@[simp] theorem call_bind (op : Op) (k : Ans op → Prog Op Ans α) (f : α → Prog Op Ans β) :
    Prog.call op k >>= f = .call op (fun x => k x >>= f) := rfl

theorem map_eq (f : α → β) (p : Prog Op Ans α) : f <$> p = p >>= fun a => .done (f a) := rfl

@[simp] theorem ask_bind (op : Op) (f : Ans op → Prog Op Ans β) : ask op >>= f = .call op f := rfl

/-! ### What a program establishes -/

section

variable {S χ : Type} (act : (op : Op) → χ → S → Option (Ans op × S))

/-- From `s`, whatever the choices `χ` of the outside are, the program ends with a result and a state that have `Q`. -/
def wp : Prog Op Ans α → (α → S → Prop) → S → Prop
  | .done a, Q, s => Q a s
  | .call op k, Q, s => ∀ x a s', act op x s = some (a, s') → (k a).wp Q s'

variable {act}

@[simp] theorem wp_done (a : α) (Q : α → S → Prop) (s : S) : (Prog.done a : Prog Op Ans α).wp act Q s ↔ Q a s := Iff.rfl

theorem wp_call {op : Op} {k : Ans op → Prog Op Ans α} {Q : α → S → Prop} {s : S} :
    (Prog.call op k).wp act Q s ↔ ∀ x a s', act op x s = some (a, s') → (k a).wp act Q s' := Iff.rfl

theorem wp_mono {p : Prog Op Ans α} {Q R : α → S → Prop} {s : S} (h : p.wp act Q s) (hQR : ∀ a s', Q a s' → R a s') :
    p.wp act R s := by
  induction p generalizing s with
  | done a => exact hQR a s h
  | call op k ih => exact fun x a s' hact => ih a (h x a s' hact)

theorem wp_bind {p : Prog Op Ans α} {f : α → Prog Op Ans β} {Q : β → S → Prop} {s : S}
    (h : p.wp act (fun a s' => (f a).wp act Q s') s) : (p >>= f).wp act Q s := by
  induction p generalizing s with
  | done a => exact h
  | call op k ih => exact fun x a s' hact => ih a (h x a s' hact)

variable (act) in
/-- The run of a program alone, with the same choice at every call. -/
def exec (x : χ) : Prog Op Ans α → S → Option (α × S)
  | .done a, s => some (a, s)
  | .call op k, s => (act op x s).bind (fun r => (k r.1).exec x r.2)

@[simp] theorem exec_done (x : χ) (a : α) (s : S) : (Prog.done a : Prog Op Ans α).exec act x s = some (a, s) := rfl

theorem exec_call (x : χ) (op : Op) (k : Ans op → Prog Op Ans α) (s : S) :
    (Prog.call op k).exec act x s = (act op x s).bind (fun r => (k r.1).exec act x r.2) := rfl

theorem exec_bind (x : χ) (p : Prog Op Ans α) (f : α → Prog Op Ans β) (s : S) :
    (p >>= f).exec act x s = (p.exec act x s).bind (fun r => (f r.1).exec act x r.2) := by
  induction p generalizing s with
  | done a => rfl
  | call op k ih =>
    simp only [call_bind, exec_call, Option.bind_assoc]
    exact Option.bind_congr fun r _ => ih r.1 r.2

/-- What a program establishes, its run with one choice has established. -/
theorem exec_of_wp {x : χ} {p : Prog Op Ans α} {Q : α → S → Prop} {s s' : S} {a : α} (h : p.wp act Q s)
    (he : p.exec act x s = some (a, s')) : Q a s' := by
  induction p generalizing s with
  | done b =>
    cases he
    exact h
  | call op k ih =>
    obtain ⟨⟨b, t⟩, hact, hrest⟩ := Option.bind_eq_some_iff.1 he
    exact ih b (h x b t hact) hrest

/-! ### What holds at every step -/

variable (act) in
/-- `C` holds before each call of the program and at its end, where `Q` holds too: a run that is stopped anywhere has left
a state with `C`. -/
def always (C : S → Prop) : Prog Op Ans α → (α → S → Prop) → S → Prop
  | .done a, Q, s => C s ∧ Q a s
  | .call op k, Q, s => C s ∧ ∀ x a s', act op x s = some (a, s') → (k a).always C Q s'

variable {C : S → Prop}

theorem always_now {p : Prog Op Ans α} {Q : α → S → Prop} {s : S} (h : p.always act C Q s) : C s := by
  cases p with
  | done a => exact h.1
  | call op k => exact h.1

theorem always_mono {p : Prog Op Ans α} {Q R : α → S → Prop} {D : S → Prop} {s : S} (h : p.always act C Q s)
    (hCD : ∀ s', C s' → D s') (hQR : ∀ a s', Q a s' → R a s') : p.always act D R s := by
  induction p generalizing s with
  | done a => exact ⟨hCD s h.1, hQR a s h.2⟩
  | call op k ih => exact ⟨hCD s h.1, fun x a s' hact => ih a (h.2 x a s' hact)⟩

theorem always_bind {p : Prog Op Ans α} {f : α → Prog Op Ans β} {Q : β → S → Prop} {s : S}
    (h : p.always act C (fun a s' => (f a).always act C Q s') s) : (p >>= f).always act C Q s := by
  induction p generalizing s with
  | done a => exact h.2
  | call op k ih => exact ⟨h.1, fun x a s' hact => ih a (h.2 x a s' hact)⟩

end

/-! ### Protocols -/

section

variable {P : Type} (spec : (op : Op) → (Ans op → P → Prop) → P → Prop)

/-- The program keeps to a protocol with the phases `P`: `spec op Q ph` says that the call `op` may be made in the phase `ph`
and that `Q` holds of what it may answer and of the phase after it. -/
def obeys : Prog Op Ans α → (α → P → Prop) → P → Prop
  | .done a, Q, ph => Q a ph
  | .call op k, Q, ph => spec op (fun a ph' => (k a).obeys Q ph') ph

variable {spec}

@[simp] theorem obeys_done {a : α} {Q : α → P → Prop} {ph : P} : (Prog.done a : Prog Op Ans α).obeys spec Q ph ↔ Q a ph :=
  Iff.rfl

theorem obeys_call {op : Op} {k : Ans op → Prog Op Ans α} {Q : α → P → Prop} {ph : P} :
    (Prog.call op k).obeys spec Q ph ↔ spec op (fun a ph' => (k a).obeys spec Q ph') ph := Iff.rfl

theorem obeys_bind {p : Prog Op Ans α} {f : α → Prog Op Ans β} {Q : β → P → Prop} {ph : P} :
    (p >>= f).obeys spec Q ph ↔ p.obeys spec (fun a ph' => (f a).obeys spec Q ph') ph := by
  induction p generalizing ph with
  | done a => exact Iff.rfl
  | call op k ih =>
    have hk : (fun a ph' => (k a >>= f).obeys spec Q ph') =
        fun a ph' => (k a).obeys spec (fun b ph'' => (f b).obeys spec Q ph'') ph' :=
      funext fun a => funext fun ph' => propext (ih a)
    rw [call_bind, obeys_call, obeys_call, hk]

end

/-! ### Rely and guarantee -/

section

variable {S χ : Type} (act : (op : Op) → χ → S → Option (Ans op × S)) (R G : S → S → Prop) (C : S → Prop)

/-- While others move the state along `R` between its steps, `C` holds before each call of the program and at its end, where
`Q` holds too, and each of its own steps is along `G`. -/
def relies : Prog Op Ans α → (α → S → Prop) → S → Prop
  | .done a, Q, s => ∀ s', R s s' → C s' ∧ Q a s'
  | .call op k, Q, s =>
    ∀ s', R s s' → C s' ∧ ∀ x a s'', act op x s' = some (a, s'') → G s' s'' ∧ (k a).relies Q s''

variable {act R G C}

theorem relies_now (hrefl : ∀ a, R a a) {p : Prog Op Ans α} {Q : α → S → Prop} {s : S}
    (h : p.relies act R G C Q s) : C s := by
  cases p with
  | done a => exact (h s (hrefl s)).1
  | call op k => exact (h s (hrefl s)).1

/-- What a program has relied on, it still relies on after the others have moved. -/
theorem relies_stable (htrans : ∀ a b c, R a b → R b c → R a c) {p : Prog Op Ans α} {Q : α → S → Prop} {s s' : S}
    (h : p.relies act R G C Q s) (hR : R s s') : p.relies act R G C Q s' := by
  cases p with
  | done a => exact fun t ht => h t (htrans s s' t hR ht)
  | call op k => exact fun t ht => h t (htrans s s' t hR ht)

theorem relies_mono {p : Prog Op Ans α} {Q Q' : α → S → Prop} {s : S} (h : p.relies act R G C Q s)
    (hQ : ∀ a s', C s' → Q a s' → Q' a s') : p.relies act R G C Q' s := by
  induction p generalizing s with
  | done a => exact fun t ht => ⟨(h t ht).1, hQ a t (h t ht).1 (h t ht).2⟩
  | call op k ih =>
    intro t ht
    obtain ⟨hC, hstep⟩ := h t ht
    refine ⟨hC, fun x a s'' hact => ?_⟩
    obtain ⟨hG, hrest⟩ := hstep x a s'' hact
    exact ⟨hG, ih a hrest⟩

theorem relies_bind (hrefl : ∀ a, R a a) {p : Prog Op Ans α} {f : α → Prog Op Ans β} {Q : β → S → Prop} {s : S}
    (h : p.relies act R G C (fun a s' => (f a).relies act R G C Q s') s) : (p >>= f).relies act R G C Q s := by
  induction p generalizing s with
  | done a =>
    rw [done_bind]
    exact (h s (hrefl s)).2
  | call op k ih =>
    intro t ht
    obtain ⟨hC, hstep⟩ := h t ht
    refine ⟨hC, fun x a s'' hact => ?_⟩
    obtain ⟨hG, hrest⟩ := hstep x a s'' hact
    exact ⟨hG, ih a hrest⟩

end

end Prog

/-! ### Machines -/

section

variable {σ ε : Type} (step : σ → ε → Option σ)

/-- A run; it is nothing when one of the events was not possible. -/
def run (s : σ) (es : List ε) : Option σ := es.foldlM step s

/-- Every step of the run meets `ok`. -/
def Meets (ok : σ → ε → Prop) : σ → List ε → Prop
  | _, [] => True
  | s, e :: es => ok s e ∧ ∀ s', step s e = some s' → Meets ok s' es

/-- The same as a test. -/
def checks (ok : σ → ε → Bool) : σ → List ε → Bool
  | _, [] => true
  | s, e :: es => ok s e && (step s e).all (fun s' => checks ok s' es)

variable {step}

theorem meets_of_checks {ok : σ → ε → Bool} {s : σ} {es : List ε} (h : checks step ok s es = true) :
    Meets step (fun s e => ok s e = true) s es := by
  induction es generalizing s with
  | nil => trivial
  | cons e es ih =>
    rw [checks, Bool.and_eq_true] at h
    refine ⟨h.1, fun s' hs' => ih ?_⟩
    have hrest := h.2
    rw [hs'] at hrest
    exact hrest

@[simp] theorem run_nil (s : σ) : run step s [] = some s := rfl

theorem run_cons (s : σ) (e : ε) (es : List ε) : run step s (e :: es) = (step s e).bind (fun s' => run step s' es) := by
  simp [run, List.foldlM_cons]

theorem run_append (s : σ) (es es' : List ε) :
    run step s (es ++ es') = (run step s es).bind (fun s' => run step s' es') := List.foldlM_append

/-- **The invariant rule.** -/
theorem run_invariant {ok : σ → ε → Prop} {P : σ → Prop} (hstep : ∀ s e s', ok s e → P s → step s e = some s' → P s')
    {s s' : σ} {es : List ε} (hok : Meets step ok s es) (hrun : run step s es = some s') (h : P s) : P s' := by
  induction es generalizing s with
  | nil =>
    rw [run_nil, Option.some.injEq] at hrun
    exact hrun ▸ h
  | cons e es ih =>
    rw [run_cons, Option.bind_eq_some_iff] at hrun
    obtain ⟨t, ht, hrest⟩ := hrun
    exact ih (hok.2 t ht) hrest (hstep s e t hok.1 h ht)

theorem meets_mono {ok ok' : σ → ε → Prop} (h : ∀ s e, ok s e → ok' s e) {s : σ} {es : List ε}
    (hok : Meets step ok s es) : Meets step ok' s es := by
  induction es generalizing s with
  | nil => trivial
  | cons e es ih => exact ⟨h s e hok.1, fun s' hs' => ih (hok.2 s' hs')⟩

theorem meets_append {ok : σ → ε → Prop} {s : σ} {es es' : List ε} (hok : Meets step ok s es)
    (hok' : ∀ s', run step s es = some s' → Meets step ok s' es') : Meets step ok s (es ++ es') := by
  induction es generalizing s with
  | nil => exact hok' s rfl
  | cons e es ih =>
    refine ⟨hok.1, fun t ht => ih (hok.2 t ht) fun s' hs' => hok' s' ?_⟩
    rw [run_cons, ht]
    exact hs'

theorem meets_take {ok : σ → ε → Prop} {s : σ} {es : List ε} (hok : Meets step ok s es) (n : ℕ) :
    Meets step ok s (es.take n) := by
  induction es generalizing s n with
  | nil =>
    rw [List.take_nil]
    trivial
  | cons e es ih =>
    cases n with
    | zero => trivial
    | succ n => exact ⟨hok.1, fun s' hs' => ih (hok.2 s' hs') n⟩

theorem meets_true (s : σ) (es : List ε) : Meets step (fun _ _ => True) s es := by
  induction es generalizing s with
  | nil => trivial
  | cons e es ih => exact ⟨trivial, fun s' _ => ih s'⟩

/-- What a step keeps exactly when it meets `ok`, a run keeps in all its states exactly when its steps meet it. -/
theorem run_invariant_iff {ok : σ → ε → Prop} {P : σ → Prop}
    (hstep : ∀ s e s', P s → step s e = some s' → (P s' ↔ ok s e)) {s s' : σ} {es : List ε}
    (hrun : run step s es = some s') (h : P s) :
    (∀ n t, run step s (es.take n) = some t → P t) ↔ Meets step ok s es := by
  induction es generalizing s with
  | nil =>
    refine ⟨fun _ => trivial, fun _ n t ht => ?_⟩
    rw [List.take_nil, run_nil, Option.some.injEq] at ht
    exact ht ▸ h
  | cons e es ih =>
    rw [run_cons, Option.bind_eq_some_iff] at hrun
    obtain ⟨u, hu, hrest⟩ := hrun
    constructor
    · intro hall
      have hu' : P u := hall 1 u (by rw [List.take_succ_cons, List.take_zero, run_cons, hu]; rfl)
      refine ⟨(hstep s e u h hu).1 hu', fun v hv => ?_⟩
      cases hu.symm.trans hv
      refine (ih hrest hu').1 fun n t ht => hall (n + 1) t ?_
      rw [List.take_succ_cons, run_cons, hu]
      exact ht
    · rintro ⟨hok, hmeets⟩ n t ht
      have hu' : P u := (hstep s e u h hu).2 hok
      cases n with
      | zero =>
        rw [List.take_zero, run_nil, Option.some.injEq] at ht
        exact ht ▸ h
      | succ n =>
        rw [List.take_succ_cons, run_cons, hu] at ht
        exact (ih hrest hu').2 (hmeets u hu) n t ht

/-- The invariant rule for what every step keeps. -/
theorem run_keeps {P : σ → Prop} (hstep : ∀ s e s', P s → step s e = some s' → P s') {s s' : σ} {es : List ε}
    (hrun : run step s es = some s') (h : P s) : P s' :=
  run_invariant (fun s e s' _ hs he => hstep s e s' hs he) (meets_true s es) hrun h

/-- What a step keeps exactly when it meets `ok`, and what no step makes good again, holds in the last state of a run exactly
when its steps meet it. -/
theorem run_final_iff {ok : σ → ε → Prop} {P : σ → Prop} (hstep : ∀ s e s', P s → step s e = some s' → (P s' ↔ ok s e))
    (hbad : ∀ s e s', ¬ P s → step s e = some s' → ¬ P s') {s s' : σ} {es : List ε} (hrun : run step s es = some s')
    (h : P s) : P s' ↔ Meets step ok s es := by
  induction es generalizing s with
  | nil =>
    obtain rfl : s = s' := by simpa [run] using hrun
    exact iff_of_true h trivial
  | cons e es ih =>
    rw [run_cons, Option.bind_eq_some_iff] at hrun
    obtain ⟨t, ht, hrun⟩ := hrun
    have hiff := hstep s e t h ht
    by_cases hok : ok s e
    · rw [ih hrun (hiff.2 hok)]
      constructor
      · exact fun hmeets => ⟨hok, fun t' ht' => Option.some.inj (ht.symm.trans ht') ▸ hmeets⟩
      · exact fun hmeets => hmeets.2 t ht
    · refine iff_of_false ?_ (fun hmeets => hok hmeets.1)
      have hbroken : ¬ P t := fun hP => hok (hiff.1 hP)
      exact run_keeps (fun s e s' hP he => hbad s e s' hP he) hrun hbroken

end

/-! ### Pools -/

/-- The shared state and the threads: each with the call it was started for. -/
structure Pool (S Call Op : Type) (Ans : Op → Type) (α : Type) where
  shared : S
  threads : List (Call × Prog Op Ans α) := []

/-- A thread is started, or one that is there makes its next call. -/
inductive Turn (Call χ : Type) where
  | start (c : Call)
  | turn (i : ℕ) (x : χ)
  deriving DecidableEq

namespace Pool

variable {S Call Op χ α : Type} {Ans : Op → Type}

/-- The step of a pool. `act i op x s` is what thread `i` gets when it calls `op` in the state `s` and the outside makes
the choice `x`; it is nothing when the call has to wait. -/
def step (body : Call → Prog Op Ans α) (act : ℕ → (op : Op) → χ → S → Option (Ans op × S))
    (w : Pool S Call Op Ans α) : Turn Call χ → Option (Pool S Call Op Ans α)
  | .start c => some { w with threads := w.threads ++ [(c, body c)] }
  | .turn i x =>
    match w.threads[i]? with
    | some (c, .call op k) =>
      (act i op x w.shared).map (fun r => { shared := r.2, threads := w.threads.set i (c, k r.1) })
    | _ => none

/-- An assertion about the shared state and one about every thread. -/
structure Holds (I : S → Prop) (T : S → ℕ → Call → Prog Op Ans α → Prop) (w : Pool S Call Op Ans α) : Prop where
  shared : I w.shared
  threads : ∀ i c p, w.threads[i]? = some (c, p) → T w.shared i c p

variable {body : Call → Prog Op Ans α} {act : ℕ → (op : Op) → χ → S → Option (Ans op × S)}
  {I : S → Prop} {T : S → ℕ → Call → Prog Op Ans α → Prop}

/-- What a turn is. -/
theorem step_turn {w w' : Pool S Call Op Ans α} {i : ℕ} {x : χ} (h : w.step body act (.turn i x) = some w') :
    ∃ c op k a s', w.threads[i]? = some (c, .call op k) ∧ act i op x w.shared = some (a, s') ∧
      w' = { shared := s', threads := w.threads.set i (c, k a) } := by
  simp only [step] at h
  split at h
  · rename_i c op k hi
    obtain ⟨⟨a, s'⟩, hact, rfl⟩ := Option.map_eq_some_iff.1 h
    exact ⟨c, op, k, a, s', hi, hact, rfl⟩
  · cases h

/-- **One step of a pool.** -/
theorem step_holds {w w' : Pool S Call Op Ans α} {e : Turn Call χ}
    (hstart : ∀ c, I w.shared → T w.shared w.threads.length c (body c))
    (hturn : ∀ i x c op k a s', e = .turn i x → w.threads[i]? = some (c, .call op k) → I w.shared →
      T w.shared i c (.call op k) → act i op x w.shared = some (a, s') →
      I s' ∧ T s' i c (k a) ∧ ∀ j d q, j ≠ i → T w.shared j d q → T s' j d q)
    (h : w.Holds I T) (hs : w.step body act e = some w') : w'.Holds I T := by
  cases e with
  | start c =>
    simp only [step, Option.some.injEq] at hs
    subst hs
    refine ⟨h.shared, fun i d p hi => ?_⟩
    rw [List.getElem?_append] at hi
    split at hi
    · exact h.threads i d p hi
    · rename_i hlt
      rw [List.getElem?_singleton] at hi
      split at hi
      · rename_i h0
        have hlen : i = w.threads.length := by omega
        cases hi
        exact hlen ▸ hstart c h.shared
      · cases hi
  | turn i x =>
    obtain ⟨c, op, k, a, s', hi, hact, rfl⟩ := step_turn hs
    obtain ⟨hI, hT, hothers⟩ := hturn i x c op k a s' rfl hi h.shared (h.threads i c _ hi) hact
    refine ⟨hI, fun j d p hj => ?_⟩
    dsimp only at hj ⊢
    by_cases hji : j = i
    · subst hji
      have hlt : j < w.threads.length := (List.getElem?_eq_some_iff.1 hi).1
      rw [List.getElem?_set_self hlt, Option.some.injEq, Prod.mk.injEq] at hj
      obtain ⟨rfl, rfl⟩ := hj
      exact hT
    · rw [List.getElem?_set_ne (Ne.symm hji)] at hj
      exact hothers j d p hji (h.threads j d p hj)

/-- **A run of a pool.** -/
theorem run_holds {ok : Pool S Call Op Ans α → Turn Call χ → Prop}
    (hstart : ∀ s i c, I s → T s i c (body c))
    (hturn : ∀ (w : Pool S Call Op Ans α) i x c op k a s', ok w (.turn i x) → w.threads[i]? = some (c, .call op k) →
      I w.shared → T w.shared i c (.call op k) → act i op x w.shared = some (a, s') →
      I s' ∧ T s' i c (k a) ∧ ∀ j d q, j ≠ i → T w.shared j d q → T s' j d q)
    {w w' : Pool S Call Op Ans α} {es : List (Turn Call χ)} (hok : Meets (step body act) ok w es)
    (hrun : run (step body act) w es = some w') (h : w.Holds I T) : w'.Holds I T := by
  refine run_invariant (P := Holds I T) (fun w e w' hok h hs => ?_) hok hrun h
  refine step_holds (fun c hI => hstart _ _ _ hI) (fun i x c op k a s' he hi hI hT hact => ?_) h hs
  subst he
  exact hturn w i x c op k a s' hok hi hI hT hact

end Pool

/-! ### Monitors -/

/-- A call that is done: the state it started in, its result and the state it left. -/
structure Done (S Call α : Type) where
  call : Call
  before : S
  result : α
  after : S

/-- A shared state that is only used under one lock; `busy` is the call that holds it, with the state in which it got
it and what it still has to do. -/
structure Monitor (S Call Op : Type) (Ans : Op → Type) (α : Type) where
  shared : S
  busy : Option (Call × S × Prog Op Ans α) := none
  /-- history: the calls that are done, the last first -/
  log : List (Done S Call α) := []

/-- A call gets the lock, the call that has it takes its next step, or it is done and gives the lock back. -/
inductive Monitor.Event (Call χ : Type) where
  | enter (c : Call)
  | turn (x : χ)
  | leave
  deriving DecidableEq

namespace Monitor

variable {S Call Op χ α : Type} {Ans : Op → Type}

def step (body : Call → Prog Op Ans α) (act : (op : Op) → χ → S → Option (Ans op × S)) (m : Monitor S Call Op Ans α) :
    Event Call χ → Option (Monitor S Call Op Ans α)
  | .enter c => if m.busy.isNone then some { m with busy := some (c, m.shared, body c) } else none
  | .turn x =>
    match m.busy with
    | some (c, s, .call op k) =>
      (act op x m.shared).map (fun r => { m with shared := r.2, busy := some (c, s, k r.1) })
    | _ => none
  | .leave =>
    match m.busy with
    | some (c, s, .done a) => some { m with busy := none, log := ⟨c, s, a, m.shared⟩ :: m.log }
    | _ => none

/-- The state the calls that are done have left, from the state `s` at the start. -/
def left (s : S) (log : List (Done S Call α)) : S := (log.head?.map Done.after).getD s

/-- Each call that is done started where the one before it stopped and has done `P`. -/
def Serial (P : Done S Call α → Prop) (s : S) : List (Done S Call α) → Prop
  | [] => True
  | d :: log => d.before = left s log ∧ P d ∧ Serial P s log

theorem serial_mem {P : Done S Call α → Prop} {s : S} {log : List (Done S Call α)} (h : Serial P s log) :
    ∀ d ∈ log, P d := by
  induction log with
  | nil => simp
  | cons d log ih =>
    intro x hx
    rcases List.mem_cons.1 hx with rfl | hx
    · exact h.2.1
    · exact ih h.2.2 x hx

/-- What holds in every run: the calls that are done are serial and the call under way is on the way to the same. -/
structure Keeps (act : (op : Op) → χ → S → Option (Ans op × S)) (C : S → Prop) (P : Done S Call α → Prop) (s : S)
    (m : Monitor S Call Op Ans α) : Prop where
  serial : Serial P s m.log
  left : C (left s m.log)
  free : m.busy = none → m.shared = Monitor.left s m.log
  busy : ∀ c s' p, m.busy = some (c, s', p) → s' = Monitor.left s m.log ∧
    p.wp act (fun a s'' => C s'' ∧ P ⟨c, s', a, s''⟩) m.shared

variable {body : Call → Prog Op Ans α} {act : (op : Op) → χ → S → Option (Ans op × S)} {C : S → Prop}
  {P : Done S Call α → Prop}

section

variable {s : S} {m m' : Monitor S Call Op Ans α} {e : Event Call χ}

/-- **One step of a monitor.** -/
theorem step_keeps (hbody : ∀ c s, C s → (body c).wp act (fun a s' => C s' ∧ P ⟨c, s, a, s'⟩) s) (h : Keeps act C P s m)
    (hstep : m.step body act e = some m') : Keeps act C P s m' := by
  cases e with
  | enter c =>
    simp only [step] at hstep
    split at hstep
    · rename_i hfree
      rw [Option.isNone_iff_eq_none] at hfree
      cases hstep
      refine ⟨h.serial, h.left, by simp, ?_⟩
      intro c' s' p hb
      cases hb
      refine ⟨h.free hfree, hbody c _ ?_⟩
      rw [h.free hfree]
      exact h.left
    · cases hstep
  | turn x =>
    simp only [step] at hstep
    split at hstep
    · rename_i c s₀ op k hb
      obtain ⟨⟨a, s₁⟩, hact, rfl⟩ := Option.map_eq_some_iff.1 hstep
      obtain ⟨hs₀, hwp⟩ := h.busy c s₀ _ hb
      refine ⟨h.serial, h.left, by simp, ?_⟩
      intro c' s' p hb'
      cases hb'
      exact ⟨hs₀, hwp x a s₁ hact⟩
    · cases hstep
  | leave =>
    simp only [step] at hstep
    split at hstep
    · rename_i c s₀ a hb
      cases hstep
      obtain ⟨hs₀, hC, hP⟩ := h.busy c s₀ _ hb
      exact ⟨⟨hs₀, hP, h.serial⟩, hC, fun _ => rfl, by simp⟩
    · cases hstep

/-- **The monitor rule.** When every call that runs alone from a state with `C` ends in one with `C` and has done `P`, the
calls of every run have. -/
theorem run_serial (hbody : ∀ c s, C s → (body c).wp act (fun a s' => C s' ∧ P ⟨c, s, a, s'⟩) s) (hs : C s)
    {es : List (Event Call χ)} (hrun : run (step body act) { shared := s } es = some m) : Keeps act C P s m :=
  run_keeps (P := Keeps act C P s) (fun _ _ _ h hstep => step_keeps hbody h hstep) hrun
    ⟨trivial, hs, fun _ => rfl, by simp⟩

/-- **A call that nothing disturbs** runs to its end. -/
theorem run_turns {x : χ} {c : Call} {s s₀ s' : S} {p : Prog Op Ans α} {a : α} {log : List (Done S Call α)}
    (h : p.exec act x s = some (a, s')) : ∃ n, run (step body act) ⟨s, some (c, s₀, p), log⟩ (List.replicate n (.turn x)) =
      some ⟨s', some (c, s₀, .done a), log⟩ := by
  induction p generalizing s with
  | done b =>
    cases h
    exact ⟨0, rfl⟩
  | call op k ih =>
    obtain ⟨⟨b, t⟩, hact, hrest⟩ := Option.bind_eq_some_iff.1 h
    obtain ⟨n, hn⟩ := ih b hrest
    refine ⟨n + 1, ?_⟩
    rw [List.replicate_succ, run_cons]
    simp only [step, hact, Option.map_some, Option.bind_some]
    exact hn

/-- The calls that have started, done or not, with the states they have started in. -/
structure Started (R : Call → S → Prop) (m : Monitor S Call Op Ans α) : Prop where
  busy : ∀ c s p, m.busy = some (c, s, p) → R c s
  log : ∀ d ∈ m.log, R d.call d.before

/-- What holds of a call when it gets the lock holds of all that have started. -/
theorem step_started {R : Call → S → Prop} (hbody : ∀ c, e = .enter c → R c m.shared) (h : m.Started R)
    (hstep : m.step body act e = some m') : m'.Started R := by
  cases e with
  | enter c =>
    simp only [step] at hstep
    split at hstep
    · cases hstep
      refine ⟨fun c' s' p hb => ?_, h.log⟩
      cases hb
      exact hbody c rfl
    · cases hstep
  | turn x =>
    simp only [step] at hstep
    split at hstep
    · rename_i c s₀ op k hb
      obtain ⟨r, -, rfl⟩ := Option.map_eq_some_iff.1 hstep
      refine ⟨fun c' s' p hb' => ?_, h.log⟩
      cases hb'
      exact h.busy c s₀ _ hb
    · cases hstep
  | leave =>
    simp only [step] at hstep
    split at hstep
    · rename_i c s₀ a hb
      cases hstep
      refine ⟨by simp, fun d hd => ?_⟩
      rcases List.mem_cons.1 hd with rfl | hd
      · exact h.busy c s₀ _ hb
      · exact h.log d hd
    · cases hstep

/-- The steps that the call under way still has to take are along `G`. -/
def Along (act : (op : Op) → χ → S → Option (Ans op × S)) (G : S → S → Prop) (m : Monitor S Call Op Ans α) : Prop :=
  ∀ c s p, m.busy = some (c, s, p) → p.relies act Eq G (fun _ => True) (fun _ _ => True) m.shared

variable {G : S → S → Prop}

/-- When a call that starts takes its steps along `G`, the state of a monitor moves along `G`. -/
theorem step_along (hrefl : ∀ s, G s s)
    (hbody : ∀ c, m.busy = none → (body c).relies act Eq G (fun _ => True) (fun _ _ => True) m.shared)
    (h : m.Along act G) (hstep : m.step body act e = some m') : G m.shared m'.shared ∧ m'.Along act G := by
  cases e with
  | enter c =>
    simp only [step] at hstep
    split at hstep
    · rename_i hfree
      cases hstep
      refine ⟨hrefl _, fun c' s' p hb => ?_⟩
      cases hb
      exact hbody c (Option.isNone_iff_eq_none.1 hfree)
    · cases hstep
  | turn x =>
    simp only [step] at hstep
    split at hstep
    · rename_i c s₀ op k hb
      obtain ⟨⟨a, s₁⟩, hact, rfl⟩ := Option.map_eq_some_iff.1 hstep
      obtain ⟨-, hnext⟩ := h c s₀ _ hb m.shared rfl
      obtain ⟨hG, hrest⟩ := hnext x a s₁ hact
      refine ⟨hG, fun c' s' p hb' => ?_⟩
      cases hb'
      exact hrest
    · cases hstep
  | leave =>
    simp only [step] at hstep
    split at hstep
    · cases hstep
      exact ⟨hrefl _, fun c s p hb => by cases hb⟩
    · cases hstep

end

end Monitor

end Velora.Lib
