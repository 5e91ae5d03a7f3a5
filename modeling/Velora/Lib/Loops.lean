import Mathlib

/-!
# Loops that can fail

A loop over a list whose turns may fail, as `List.foldlM` and `List.mapM` in `Except`: what holds of its result when it
does not.
-/

namespace Velora.Lib.Loops

/-! ### One step after the other -/

theorem bind_eq_ok {ε α β : Type} {x : Except ε α} {f : α → Except ε β} {b : β} :
    x >>= f = .ok b ↔ ∃ a, x = .ok a ∧ f a = .ok b := by
  cases x <;> simp [bind, Except.bind]

theorem pure_eq_ok {ε α : Type} {a b : α} : (pure a : Except ε α) = .ok b ↔ a = b := by
  simp [pure, Except.pure]

/-- A check that throws was passed. -/
theorem guard_eq_ok {ε α β : Type} {c : Prop} [Decidable c] {e : ε} {f : α → Except ε β} {y : Except ε β} {b : β} :
    (if c then (throw e >>= f) else y) = .ok b ↔ ¬ c ∧ y = .ok b := by
  by_cases hc : c <;> simp [hc, bind, Except.bind, throw, throwThe, MonadExceptOf.throw]

/-! ### Loops -/

/-- What one turn of a loop keeps, the loop keeps. -/
theorem foldlM_invariant {α β ε : Type} {f : β → α → Except ε β} {P : β → Prop} :
    ∀ {l : List α} {b b' : β}, (∀ a ∈ l, ∀ b b', P b → f b a = .ok b' → P b') → P b → l.foldlM f b = .ok b' → P b'
  | [], b, b', _, hb, h => by
    cases h
    exact hb
  | a :: l, b, b', hf, hb, h => by
    rw [List.foldlM_cons] at h
    cases ha : f b a with
    | error e =>
      rw [ha] at h
      cases h
    | ok c =>
      rw [ha] at h
      exact foldlM_invariant (fun x hx => hf x (List.mem_cons_of_mem _ hx)) (hf a List.mem_cons_self b c hb ha) h

/-- A loop may leave out the turns that change nothing. -/
theorem foldlM_filter {α β ε : Type} {f : β → α → Except ε β} {p : α → Prop} [DecidablePred p] :
    ∀ {l : List α} {b : β}, (∀ b, ∀ a ∈ l, ¬ p a → f b a = .ok b) → l.foldlM f b = (l.filter (fun a => p a)).foldlM f b
  | [], _, _ => rfl
  | a :: l, b, hf => by
    have hrest : ∀ b, ∀ x ∈ l, ¬ p x → f b x = .ok b := fun b x hx => hf b x (List.mem_cons_of_mem _ hx)
    rw [List.foldlM_cons]
    by_cases ha : p a
    · rw [List.filter_cons_of_pos (by simpa using ha), List.foldlM_cons]
      exact bind_congr fun c => foldlM_filter hrest
    · rw [List.filter_cons_of_neg (by simpa using ha), hf b a List.mem_cons_self ha]
      exact foldlM_filter hrest

theorem mem_of_mapM_ok {α β ε : Type} {f : α → Except ε β} :
    ∀ {l : List α} {l' : List β}, l.mapM f = .ok l' → ∀ b ∈ l', ∃ a ∈ l, f a = .ok b
  | [], l', h, b, hb => by
    cases h
    cases hb
  | a :: l, l', h, b, hb => by
    rw [List.mapM_cons] at h
    cases ha : f a with
    | error e =>
      rw [ha] at h
      cases h
    | ok x =>
      cases hl : l.mapM f with
      | error e =>
        rw [ha, hl] at h
        cases h
      | ok xs =>
        rw [ha, hl] at h
        cases h
        rcases List.mem_cons.1 hb with rfl | hb
        · exact ⟨a, List.mem_cons_self, ha⟩
        · obtain ⟨y, hy, hfy⟩ := mem_of_mapM_ok hl b hb
          exact ⟨y, List.mem_cons_of_mem _ hy, hfy⟩

/-- A loop over results that are left as they are. -/
theorem mapM_ok_of_fixed {α ε : Type} {f : α → Except ε α} : ∀ {l : List α}, (∀ a ∈ l, f a = .ok a) → l.mapM f = .ok l
  | [], _ => rfl
  | a :: l, h => by
    rw [List.mapM_cons, h a List.mem_cons_self, mapM_ok_of_fixed (fun b hb => h b (List.mem_cons_of_mem _ hb))]
    rfl

theorem length_of_mapM_ok {α β ε : Type} {f : α → Except ε β} :
    ∀ {l : List α} {l' : List β}, l.mapM f = .ok l' → l'.length = l.length
  | [], l', h => by
    cases h
    rfl
  | a :: l, l', h => by
    rw [List.mapM_cons, bind_eq_ok] at h
    obtain ⟨x, -, h⟩ := h
    rw [bind_eq_ok] at h
    obtain ⟨xs, hxs, h⟩ := h
    cases h
    simp [length_of_mapM_ok hxs]

theorem forall₂_of_mapM_ok {α β ε : Type} {f : α → Except ε β} : ∀ {l : List α} {l' : List β}, l.mapM f = .ok l' →
    List.Forall₂ (fun a b => f a = .ok b) l l'
  | [], l', h => by
    cases h
    exact .nil
  | a :: l, l', h => by
    rw [List.mapM_cons, bind_eq_ok] at h
    obtain ⟨x, hx, h⟩ := h
    rw [bind_eq_ok] at h
    obtain ⟨xs, hxs, h⟩ := h
    cases h
    exact .cons hx (forall₂_of_mapM_ok hxs)

/-- Of two lists that are related one by one, each element of the first has one of the second. -/
theorem exists_mem_of_forall₂ {α β : Type} {R : α → β → Prop} {l : List α} {l' : List β} (h : List.Forall₂ R l l') :
    ∀ a ∈ l, ∃ b ∈ l', R a b := by
  induction h with
  | nil =>
    intro a ha
    cases ha
  | @cons a b l l' hab _ ih =>
    intro c hc
    rcases List.mem_cons.1 hc with rfl | hc
    · exact ⟨b, List.mem_cons_self, hab⟩
    · obtain ⟨d, hd, hcd⟩ := ih c hc
      exact ⟨d, List.mem_cons_of_mem b hd, hcd⟩

/-- What holds between the results of a loop in pairs, said of its inputs. -/
theorem pairwise_of_mapM_ok {α β ε : Type} {f : α → Except ε β} {R : β → β → Prop} :
    ∀ {l : List α} {l' : List β}, l.mapM f = .ok l' → l'.Pairwise R →
      l.Pairwise (fun a b => ∃ x y, f a = .ok x ∧ f b = .ok y ∧ R x y)
  | [], _, _, _ => .nil
  | a :: l, l', h, hp => by
    rw [List.mapM_cons, bind_eq_ok] at h
    obtain ⟨x, hx, h⟩ := h
    rw [bind_eq_ok] at h
    obtain ⟨xs, hxs, h⟩ := h
    cases h
    rw [List.pairwise_cons] at hp
    refine .cons (fun b hb => ?_) (pairwise_of_mapM_ok hxs hp.2)
    obtain ⟨y, hy, hby⟩ := exists_mem_of_forall₂ (forall₂_of_mapM_ok hxs) b hb
    exact ⟨x, y, hx, hby, hp.1 y hy⟩

/-- A loop fails only where one of its turns does. -/
theorem exists_mapM_ok {α β ε : Type} {f : α → Except ε β} {l : List α} (h : ∀ a ∈ l, ∃ b, f a = .ok b) :
    ∃ l', l.mapM f = .ok l' := by
  induction l with
  | nil => exact ⟨[], rfl⟩
  | cons a l ih =>
    obtain ⟨b, hb⟩ := h a List.mem_cons_self
    obtain ⟨l', hl'⟩ := ih fun x hx => h x (List.mem_cons_of_mem a hx)
    exact ⟨b :: l', by rw [List.mapM_cons, hb, hl']; rfl⟩

/-- A loop that does not fail leaves out nothing. -/
theorem filterMap_of_mapM_ok {α β ε : Type} {f : α → Except ε β} {l : List α} {l' : List β} (h : l.mapM f = .ok l') :
    l.filterMap (fun a => (f a).toOption) = l' := by
  have hall := forall₂_of_mapM_ok h
  clear h
  induction hall with
  | nil => rfl
  | @cons a b l l' hab _ ih =>
    rw [List.filterMap_cons, hab, ih]
    rfl

/-- A loop over the same elements in another order. -/
theorem mapM_ok_perm {α β ε : Type} {f : α → Except ε β} {l l' : List α} (hp : l.Perm l') :
    ∀ {bs : List β}, l.mapM f = .ok bs → ∃ bs', l'.mapM f = .ok bs' ∧ bs.Perm bs' := by
  induction hp with
  | nil => exact fun h => ⟨_, h, List.Perm.refl _⟩
  | cons a _ ih =>
    intro bs h
    rw [List.mapM_cons, bind_eq_ok] at h
    obtain ⟨x, hx, h⟩ := h
    rw [bind_eq_ok] at h
    obtain ⟨xs, hxs, h⟩ := h
    cases h
    obtain ⟨ys, hys, hperm⟩ := ih hxs
    exact ⟨x :: ys, by simp only [List.mapM_cons, hx, hys]; rfl, hperm.cons x⟩
  | swap a b l =>
    intro bs h
    simp only [List.mapM_cons, bind_eq_ok, pure_eq_ok] at h
    obtain ⟨y, hy, _, ⟨x, hx, xs, hxs, rfl⟩, rfl⟩ := h
    exact ⟨x :: y :: xs, by simp only [List.mapM_cons, hx, hy, hxs]; rfl, List.Perm.swap _ _ _⟩
  | trans _ _ ih₁ ih₂ =>
    intro bs h
    obtain ⟨bs₁, h₁, hp₁⟩ := ih₁ h
    obtain ⟨bs₂, h₂, hp₂⟩ := ih₂ h₁
    exact ⟨bs₂, h₂, hp₁.trans hp₂⟩

theorem eq_ok_of_toOption {ε α : Type} {x : Except ε α} {a : α} (h : x.toOption = some a) : x = .ok a := by
  cases x with
  | error e => cases h
  | ok b =>
    cases h
    rfl

end Velora.Lib.Loops
