import Mathlib

/-!
# Bounded maps in order of use

The ideal bounded map with expiry: the list of its bindings, the most recently used first. A lookup that succeeds
brings its binding to the front; an insertion into a full map drops the last binding. Nothing here is about any
particular cache: keys are compared by equality, values are arbitrary, times are natural numbers.

The last parts describe the map by its history:

* `peek_run_iff`: what a lookup finds is the last insertion under that key since the last flush, if that has neither
  expired nor been dropped to make room;
* `keys_run_sublist`: the order of the map is the order of last use.
-/

namespace Velora.Lib.Lru

/-- Where no two elements share a key, the element found under a key is the one that has it. -/
theorem find?_key_iff {α κ : Type} [DecidableEq κ] {f : α → κ} {l : List α} (hl : (l.map f).Nodup) {k : κ} {a : α} :
    l.find? (fun x => f x = k) = some a ↔ a ∈ l ∧ f a = k := by
  constructor
  · intro h
    exact ⟨List.mem_of_find?_eq_some h, by simpa using List.find?_some h⟩
  · rintro ⟨ha, rfl⟩
    cases hf : l.find? (fun x => f x = f a) with
    | none => exact absurd (List.find?_eq_none.1 hf a ha) (by simp)
    | some b =>
      have hb : f b = f a := by simpa using List.find?_some hf
      rw [List.inj_on_of_nodup_map hl (List.mem_of_find?_eq_some hf) ha hb]

/-- A key, its value and the time from which it counts as absent. -/
structure Binding (κ ν : Type) where
  key : κ
  val : ν
  expires : ℕ
  deriving DecidableEq

variable {κ ν : Type} [DecidableEq κ]

/-- The map without the key `k`. -/
def erase (k : κ) (s : List (Binding κ ν)) : List (Binding κ ν) := s.filter (fun b => b.key ≠ k)

/-- Make room for one more in a list of at most `cap`: a full one loses its last element. -/
def makeRoom {α : Type} (cap : ℕ) (s : List α) : List α := if cap ≤ s.length then s.dropLast else s

/-- Insert at the front, replacing the binding of the same key. -/
def put (cap : ℕ) (b : Binding κ ν) (s : List (Binding κ ν)) : List (Binding κ ν) :=
  b :: makeRoom cap (erase b.key s)

/-- The binding of a key, expired or not. -/
def find (k : κ) (s : List (Binding κ ν)) : Option (Binding κ ν) := s.find? (fun b => b.key = k)

/-- The live binding of a key, the map untouched. -/
def peek (now : ℕ) (k : κ) (s : List (Binding κ ν)) : Option (Binding κ ν) :=
  (find k s).filter (fun b => now < b.expires)

/-- The map after a lookup: a live binding moves to the front, an expired one is dropped. -/
def touch (now : ℕ) (k : κ) (s : List (Binding κ ν)) : List (Binding κ ν) :=
  match find k s with
  | none => s
  | some b => if now < b.expires then b :: erase k s else erase k s

/-- Drop the expired bindings. -/
def sweep (now : ℕ) (s : List (Binding κ ν)) : List (Binding κ ν) := s.filter (fun b => now < b.expires)

/-- The keys of a map. -/
def keys (s : List (Binding κ ν)) : List κ := s.map Binding.key

/-! ### Keys and sizes -/

theorem mem_erase {k : κ} {b : Binding κ ν} {s : List (Binding κ ν)} :
    b ∈ erase k s ↔ b ∈ s ∧ b.key ≠ k := by
  simp [erase]

theorem erase_sublist (k : κ) (s : List (Binding κ ν)) : (erase k s).Sublist s := List.filter_sublist

theorem makeRoom_sublist {α : Type} (cap : ℕ) (s : List α) : (makeRoom cap s).Sublist s := by
  unfold makeRoom
  split
  · exact List.dropLast_sublist s
  · exact List.Sublist.refl s

theorem makeRoom_map {α β : Type} (f : α → β) (cap : ℕ) (s : List α) :
    makeRoom cap (s.map f) = (makeRoom cap s).map f := by
  unfold makeRoom
  rw [List.length_map]
  split
  · rw [List.map_dropLast]
  · rfl

theorem length_makeRoom_lt {α : Type} {cap : ℕ} (hcap : 0 < cap) {s : List α} (hs : s.length ≤ cap) :
    (makeRoom cap s).length < cap := by
  unfold makeRoom
  split
  · rw [List.length_dropLast]; omega
  · omega

theorem find_eq_some {k : κ} {b : Binding κ ν} {s : List (Binding κ ν)} (h : find k s = some b) :
    b ∈ s ∧ b.key = k :=
  ⟨List.mem_of_find?_eq_some h, by simpa using List.find?_some h⟩

/-! ### Histories

A history is a list of timed actions, the oldest first. -/

/-- What can happen to a map: an insertion, a lookup, the removal of what has expired, of everything, or nothing. -/
inductive Act (κ ν : Type) where
  | put (b : Binding κ ν) | touch (k : κ) | sweep | flush | idle

def step (cap now : ℕ) : Act κ ν → List (Binding κ ν) → List (Binding κ ν)
  | .put b, s => put cap b s
  | .touch k, s => touch now k s
  | .sweep, s => sweep now s
  | .flush, _ => []
  | .idle, s => s

/-- The map after a history, from the empty one. -/
def run (cap : ℕ) (h : List (ℕ × Act κ ν)) : List (Binding κ ν) := h.foldl (fun s a => step cap a.1 a.2 s) []

/-- The last insertion under `k`, an earlier one being known, after one more action. -/
def remember (k : κ) (last : Option (Binding κ ν)) : Act κ ν → Option (Binding κ ν)
  | .put b => if b.key = k then some b else last
  | .flush => none
  | _ => last

/-- The last insertion under `k` with no flush since. -/
def lastPut (h : List (ℕ × Act κ ν)) (k : κ) : Option (Binding κ ν) := h.foldl (fun o a => remember k o a.2) none

/-- The keys a history uses, the last used last. -/
def used (h : List (ℕ × Act κ ν)) : List κ :=
  h.filterMap (fun a => match a.2 with | .put b => some b.key | .touch k => some k | _ => none)

/-- Inserting `c` into `s` drops `b` to make room. -/
def Evicts (cap : ℕ) (c b : Binding κ ν) (s : List (Binding κ ν)) : Prop :=
  c.key ≠ b.key ∧ cap ≤ (erase c.key s).length ∧ (erase c.key s).getLast? = some b

/-- Since it was last inserted, `b` was dropped to make room for another key. -/
def Evicted (cap : ℕ) (h : List (ℕ × Act κ ν)) (b : Binding κ ν) : Prop :=
  ∃ pre t c post, h = pre ++ (t, .put c) :: post ∧ Evicts cap c b (run cap pre) ∧
    ∀ a ∈ post, ∀ d, a.2 = .put d → d.key ≠ b.key

section History

variable {cap : ℕ} {h : List (ℕ × Act κ ν)} {b : Binding κ ν} {k : κ}

theorem run_snoc (a : ℕ × Act κ ν) : run cap (h ++ [a]) = step cap a.1 a.2 (run cap h) := by
  simp [run]

theorem lastPut_snoc (a : ℕ × Act κ ν) : lastPut (h ++ [a]) k = remember k (lastPut h k) a.2 := by
  simp [lastPut]

/-- A binding of the map after one action was inserted by it, or was there before. -/
theorem mem_step {now : ℕ} {a : Act κ ν} {s : List (Binding κ ν)} (hb : b ∈ step cap now a s) :
    a = .put b ∨ b ∈ s ∧ a ≠ .flush ∧ ∀ c, a = .put c → b.key ≠ c.key := by
  cases a with
  | put c =>
    rcases List.mem_cons.1 hb with rfl | hb
    · exact Or.inl rfl
    · obtain ⟨h1, h2⟩ := mem_erase.1 ((makeRoom_sublist cap _).subset hb)
      refine Or.inr ⟨h1, by simp, ?_⟩
      rintro d hd
      obtain rfl : c = d := by simpa using hd
      exact h2
  | touch k =>
    refine Or.inr ⟨?_, by simp, by simp⟩
    simp only [step, touch] at hb
    split at hb
    · exact hb
    · rename_i c hc
      split at hb
      · rcases List.mem_cons.1 hb with rfl | hb
        · exact (find_eq_some hc).1
        · exact (mem_erase.1 hb).1
      · exact (mem_erase.1 hb).1
  | sweep => exact Or.inr ⟨List.mem_of_mem_filter hb, by simp, by simp⟩
  | flush => exact absurd hb (by simp [step])
  | idle => exact Or.inr ⟨hb, by simp, by simp⟩

/-- Every binding of the map is the last insertion under its key. -/
theorem lastPut_of_mem (hb : b ∈ run cap h) : lastPut h b.key = some b := by
  induction h using List.reverseRecOn with
  | nil => simp [run] at hb
  | append_singleton h a ih =>
    rw [run_snoc] at hb
    rw [lastPut_snoc]
    rcases mem_step hb with ha | ⟨hmem, hfl, hput⟩
    · simp [ha, remember]
    · rw [ih hmem]
      cases hact : a.2 with
      | put c => simp [remember, (hput c hact).symm]
      | flush => exact absurd hact hfl
      | _ => rfl

/-- The keys of a map after one action are without duplicates if they were before. -/
theorem nodup_step {now : ℕ} (a : Act κ ν) {s : List (Binding κ ν)} (hs : (keys s).Nodup) :
    (keys (step cap now a s)).Nodup := by
  have herase : ∀ k, (keys (erase k s)).Nodup := fun k => hs.sublist ((erase_sublist k s).map _)
  cases a with
  | put c =>
    refine List.nodup_cons.2 ⟨?_, (herase c.key).sublist ((makeRoom_sublist cap _).map _)⟩
    intro hc
    obtain ⟨d, hd, hk⟩ := List.mem_map.1 hc
    exact (mem_erase.1 ((makeRoom_sublist cap _).subset hd)).2 hk
  | touch k =>
    simp only [step, touch]
    split
    · exact hs
    · rename_i c hc
      split
      · refine List.nodup_cons.2 ⟨?_, herase k⟩
        intro hk
        obtain ⟨d, hd, hdk⟩ := List.mem_map.1 hk
        exact (mem_erase.1 hd).2 (hdk.trans (find_eq_some hc).2)
      · exact herase k
  | sweep => exact hs.sublist (List.filter_sublist.map _)
  | flush => exact List.nodup_nil
  | idle => exact hs

theorem nodup_run (h : List (ℕ × Act κ ν)) : (keys (run cap h)).Nodup := by
  induction h using List.reverseRecOn with
  | nil => exact List.nodup_nil
  | append_singleton h a ih => rw [run_snoc]; exact nodup_step a.2 ih

theorem find_of_mem {s : List (Binding κ ν)} (hs : (keys s).Nodup) (hb : b ∈ s) : find b.key s = some b :=
  (find?_key_iff hs).2 ⟨hb, rfl⟩

/-- A binding that one action loses was flushed, has expired, was replaced, or was dropped to make room. -/
theorem lost_step {now : ℕ} {a : Act κ ν} {s : List (Binding κ ν)} (hs : (keys s).Nodup) (hb : b ∈ s)
    (hb' : b ∉ step cap now a s) :
    a = .flush ∨ b.expires ≤ now ∨ ∃ c, a = .put c ∧ (c.key = b.key ∨ Evicts cap c b s) := by
  cases a with
  | put c =>
    refine Or.inr (Or.inr ⟨c, rfl, ?_⟩)
    by_cases hk : c.key = b.key
    · exact Or.inl hk
    · have he : b ∈ erase c.key s := mem_erase.2 ⟨hb, fun h => hk h.symm⟩
      have hroom : b ∉ makeRoom cap (erase c.key s) := fun h => hb' (List.mem_cons_of_mem _ h)
      unfold makeRoom at hroom
      split at hroom
      · rename_i hcap
        refine Or.inr ⟨hk, hcap, ?_⟩
        obtain ⟨init, last, hl⟩ := (List.eq_nil_or_concat _).resolve_left (List.ne_nil_of_mem he)
        rw [hl, List.concat_eq_append] at he hroom ⊢
        have : b = last := by simpa [List.dropLast_concat] using (List.mem_append.1 he).resolve_left (by
          simpa [List.dropLast_concat] using hroom)
        simp [this]
      · exact absurd he hroom
  | touch k =>
    refine Or.inr (Or.inl ?_)
    by_contra hlive
    simp only [step, touch] at hb'
    split at hb'
    · exact hb' hb
    · rename_i c hc
      by_cases hk : b.key = k
      · -- the looked-up binding is `b` itself, which is live and moves to the front
        rw [← hk, find_of_mem hs hb] at hc
        obtain rfl : b = c := by simpa using hc
        exact hb' (by simp [not_le.1 hlive])
      · have he : b ∈ erase k s := mem_erase.2 ⟨hb, hk⟩
        split at hb'
        · exact hb' (List.mem_cons_of_mem _ he)
        · exact hb' he
  | sweep =>
    refine Or.inr (Or.inl ?_)
    by_contra hlive
    exact hb' (List.mem_filter.2 ⟨hb, by simpa using hlive⟩)
  | flush => exact Or.inl rfl
  | idle => exact absurd hb hb'

theorem Evicted.snoc (he : Evicted cap h b) {a : ℕ × Act κ ν} (ha : ∀ d, a.2 = .put d → d.key ≠ b.key) :
    Evicted cap (h ++ [a]) b := by
  obtain ⟨pre, t, c, post, rfl, hev, hpost⟩ := he
  refine ⟨pre, t, c, post ++ [a], by simp, hev, ?_⟩
  intro x hx
  rcases List.mem_append.1 hx with hx | hx
  · exact hpost x hx
  · rw [List.mem_singleton.1 hx]
    exact ha

/-- The last insertion under a key is still there, or has expired, or was dropped to make room. -/
theorem lastPut_kept {now : ℕ} (hnow : ∀ a ∈ h, a.1 ≤ now) (hl : lastPut h k = some b) :
    b.key = k ∧ (b ∈ run cap h ∨ b.expires ≤ now ∨ Evicted cap h b) := by
  induction h using List.reverseRecOn with
  | nil => simp [lastPut] at hl
  | append_singleton h a ih =>
    have hold : lastPut h k = some b → a.2 ≠ .flush → (∀ c, a.2 = .put c → c.key ≠ k) →
        b.key = k ∧ (b ∈ run cap (h ++ [a]) ∨ b.expires ≤ now ∨ Evicted cap (h ++ [a]) b) := by
      intro hl hfl hput
      obtain ⟨hk, hcase⟩ := ih (fun x hx => hnow x (by simp [hx])) hl
      refine ⟨hk, ?_⟩
      rcases hcase with hmem | hexp | hev
      · by_cases hmem' : b ∈ run cap (h ++ [a])
        · exact Or.inl hmem'
        · rw [run_snoc] at hmem'
          rcases lost_step (nodup_run h) hmem hmem' with hf | he | ⟨c, hc, hck | hev⟩
          · exact absurd hf hfl
          · exact Or.inr (Or.inl (he.trans (hnow a (by simp))))
          · exact absurd (hck.trans hk) (hput c hc)
          · obtain ⟨t, act⟩ := a
            subst hc
            exact Or.inr (Or.inr ⟨h, t, c, [], rfl, hev, by simp⟩)
      · exact Or.inr (Or.inl hexp)
      · exact Or.inr (Or.inr (hev.snoc (hk ▸ hput)))
    rw [lastPut_snoc] at hl
    cases hact : a.2 with
    | put c =>
      rw [hact] at hl
      simp only [remember] at hl
      split at hl
      · rename_i hck
        obtain rfl : c = b := by simpa using hl
        exact ⟨hck, Or.inl (by rw [run_snoc, hact]; exact List.mem_cons_self)⟩
      · rename_i hck
        exact hold hl (by simp [hact]) (by rintro d hd; rw [hact] at hd; obtain rfl : c = d := by simpa using hd
                                           exact hck)
    | flush => simp [hact, remember] at hl
    | touch _ => exact hold (by simpa [hact, remember] using hl) (by simp [hact]) (by simp [hact])
    | sweep => exact hold (by simpa [hact, remember] using hl) (by simp [hact]) (by simp [hact])
    | idle => exact hold (by simpa [hact, remember] using hl) (by simp [hact]) (by simp [hact])

/-- A key that was dropped and not inserted since is not in the map. -/
theorem Evicted.notMem (he : Evicted cap h b) : b.key ∉ keys (run cap h) := by
  obtain ⟨pre, t, c, post, rfl, ⟨hne, hcap, hlast⟩, hpost⟩ := he
  induction post using List.reverseRecOn with
  | nil =>
    rw [run_snoc]
    intro hb
    obtain ⟨d, hd, hdk⟩ := List.mem_map.1 hb
    rcases List.mem_cons.1 hd with rfl | hd
    · exact hne hdk
    · -- the last binding of the map is dropped, and no other has its key
      rw [makeRoom, if_pos hcap] at hd
      obtain ⟨init, hinit⟩ := List.getLast?_eq_some_iff.1 hlast
      rw [hinit, List.dropLast_concat] at hd
      have hnd : (keys (erase c.key (run cap pre))).Nodup := (nodup_run pre).sublist ((erase_sublist _ _).map _)
      rw [hinit, keys, List.map_append, List.nodup_append] at hnd
      exact hnd.2.2 d.key (List.mem_map_of_mem hd) b.key (by simp) hdk
  | append_singleton post a ih =>
    intro hb
    obtain ⟨d, hd, hdk⟩ := List.mem_map.1 hb
    have hassoc : pre ++ (t, Act.put c) :: (post ++ [a]) = (pre ++ (t, .put c) :: post) ++ [a] := by simp
    rw [hassoc, run_snoc] at hd
    rcases mem_step hd with ha | ⟨hmem, -, -⟩
    · exact hpost a (by simp) d ha hdk
    · exact ih (fun x hx => hpost x (by simp [hx])) (hdk ▸ List.mem_map_of_mem hmem)

/-- **What a lookup finds.** It is the last insertion under the key since the last flush, if that has neither expired
nor been dropped to make room, and nothing otherwise. -/
theorem peek_run_iff {now : ℕ} (hnow : ∀ a ∈ h, a.1 ≤ now) :
    peek now k (run cap h) = some b ↔ lastPut h k = some b ∧ now < b.expires ∧ ¬ Evicted cap h b := by
  constructor
  · intro hp
    obtain ⟨hf, hlive⟩ := Option.filter_eq_some_iff.1 hp
    obtain ⟨hmem, rfl⟩ := find_eq_some hf
    refine ⟨lastPut_of_mem hmem, by simpa using hlive, ?_⟩
    intro he
    exact he.notMem (List.mem_map_of_mem hmem)
  · rintro ⟨hl, hlive, hev⟩
    have hkept : b.key = k ∧ (b ∈ run cap h ∨ b.expires ≤ now ∨ Evicted cap h b) := lastPut_kept hnow hl
    obtain ⟨rfl, hmem | hexp | hev'⟩ := hkept
    · exact Option.filter_eq_some_iff.2 ⟨find_of_mem (nodup_run h) hmem, by simpa using hlive⟩
    · omega
    · exact absurd hev' hev

end History

/-! ### The order of use -/

theorem sublist_dedup_snoc {a : κ} : ∀ {l s : List κ}, s.Sublist l.dedup → a ∉ s → (s ++ [a]).Sublist (l ++ [a]).dedup
  | [], s, hs, _ => by
    obtain rfl : s = [] := by simpa using hs
    simp
  | x :: l, s, hs, ha => by
    by_cases hx : x ∈ l
    · rw [List.dedup_cons_of_mem hx] at hs
      rw [List.cons_append, List.dedup_cons_of_mem (by simp [hx])]
      exact sublist_dedup_snoc hs ha
    · rw [List.dedup_cons_of_notMem hx] at hs
      by_cases hxa : x = a
      · subst hxa
        rw [List.cons_append, List.dedup_cons_of_mem (by simp)]
        rcases List.sublist_cons_iff.1 hs with hs | ⟨r, rfl, hs⟩
        · exact sublist_dedup_snoc hs ha
        · simp at ha
      · rw [List.cons_append, List.dedup_cons_of_notMem (by simp [hx, hxa])]
        rcases List.sublist_cons_iff.1 hs with hs | ⟨r, rfl, hr⟩
        · exact (sublist_dedup_snoc hs ha).cons x
        · exact (sublist_dedup_snoc hr (fun h => ha (by simp [h]))).cons_cons x

/-- **The order of a map is the order of use**: from the back to the front, its keys come in the order in which the
history last inserted them or looked them up. -/
theorem keys_run_sublist (cap : ℕ) (h : List (ℕ × Act κ ν)) :
    (keys (run cap h)).reverse.Sublist (used h).dedup := by
  induction h using List.reverseRecOn with
  | nil => simp [run, keys]
  | append_singleton h a ih =>
    rw [run_snoc]
    have hsub : ∀ {s}, s.Sublist (run cap h) → (keys s).reverse.Sublist (used h).dedup :=
      fun hs => ((hs.map _).reverse).trans ih
    have herase : ∀ k s, s.Sublist (erase k (run cap h)) → k ∉ (keys s).reverse := by
      intro k s hs hk
      obtain ⟨d, hd, rfl⟩ := List.mem_map.1 (List.mem_reverse.1 hk)
      exact (mem_erase.1 (hs.subset hd)).2 rfl
    obtain ⟨t, act⟩ := a
    cases act with
    | put c =>
      have hroom := makeRoom_sublist cap (erase c.key (run cap h))
      have := sublist_dedup_snoc (hsub (hroom.trans (erase_sublist _ _))) (herase _ _ hroom)
      simpa [step, put, keys, used] using this
    | touch k =>
      have hu : used (h ++ [(t, Act.touch k)]) = used h ++ [k] := by simp [used]
      have hk := sublist_dedup_snoc (hsub (erase_sublist k _)) (herase k _ (List.Sublist.refl _))
      rw [hu]
      simp only [step, touch]
      split
      · rename_i hf
        have hall : erase k (run cap h) = run cap h :=
          List.filter_eq_self.2 fun c hc => by simpa using List.find?_eq_none.1 hf c hc
        rw [hall] at hk
        exact (List.sublist_append_left _ _).trans hk
      · rename_i c hc
        obtain ⟨-, rfl⟩ := find_eq_some hc
        split
        · simpa [keys] using hk
        · exact (List.sublist_append_left _ _).trans hk
    | sweep => simpa [used, step, sweep] using hsub List.filter_sublist
    | flush => simp [step, keys]
    | idle => simpa [used, step] using ih

end Velora.Lib.Lru
