import Mathlib

/-!
# Reading a table page by page

A table is a list of rows in the order of their keys. A reader asks for the last rows below a key, a page at a time, and goes on
below the last row of the page before. Between two pages rows may go and new ones may come, with keys above all that there were
(`Later`). What the reader gets is in the order of the keys, without repetition, and from the table as it was at first
(`crawl_sound`); it gets to the end (`crawl_ends`), and then it has all rows that were there throughout (`mem_crawl`).
-/

namespace Velora.Lib.Paging

variable {α : Type} (key : α → ℕ)

/-! ### Pages -/

/-- Rows in the order of their keys. -/
abbrev Ordered (rows : List α) : Prop := rows.Pairwise (fun a b => key a < key b)

/-- The key of the row is below a bound, if there is one. -/
def below (before : Option ℕ) (r : α) : Bool := before.all (fun k => key r < k)

/-- The last rows below a bound that meet the condition, the last first. -/
def page (p : α → Bool) (limit : ℕ) (before : Option ℕ) (rows : List α) : List α :=
  (rows.filter (fun r => p r && below key before r)).reverse.take limit

/-- The pages, one from each of the tables, until one is empty. -/
def crawl (p : α → Bool) (limit : ℕ) : Option ℕ → List (List α) → List (List α)
  | _, [] => []
  | before, rows :: tables =>
    let found := page key p limit before rows
    match found.getLast? with
    | none => [found]
    | some r => found :: crawl p limit (some (key r)) tables

/-- Some rows are gone and others, with keys above `n`, have come. -/
def Later (n : ℕ) (rows rows' : List α) : Prop := ∃ kept new, rows' = kept ++ new ∧ kept.Sublist rows ∧ ∀ r ∈ new, n < key r

/-- Each table is a later one than that before it, and all are in order. -/
def Evolves (n : ℕ) : List α → List (List α) → Prop
  | rows, [] => Ordered key rows
  | rows, rows' :: tables => Ordered key rows ∧ Later key n rows rows' ∧ Evolves n rows' tables

variable {key} {p : α → Bool} {limit n : ℕ} {before : Option ℕ} {rows rows' : List α} {tables : List (List α)} {r z : α}

theorem below_some (h : below key (some (key z)) r = true) : key r < key z := of_decide_eq_true h

/-- What is below a row that is below the bound is so too. -/
theorem below_trans (hz : below key before z = true) (hr : below key (some (key z)) r = true) : below key before r = true := by
  unfold below at hz ⊢
  rw [Option.all_eq_true] at hz ⊢
  intro k hk
  exact decide_eq_true ((below_some hr).trans (of_decide_eq_true (hz k hk)))

theorem Later.mem (h : Later key n rows rows') (hr : r ∈ rows') (hle : key r ≤ n) : r ∈ rows := by
  obtain ⟨kept, new, rfl, hsub, hnew⟩ := h
  rcases List.mem_append.1 hr with hr | hr
  · exact hsub.subset hr
  · exact absurd (hnew r hr) (not_lt.2 hle)

theorem Later.refl (n : ℕ) (rows : List α) : Later key n rows rows := ⟨rows, [], by simp, List.Sublist.refl rows, by simp⟩

theorem Later.mono {m : ℕ} (h : Later key n rows rows') (hle : m ≤ n) : Later key m rows rows' := by
  obtain ⟨kept, new, heq, hsub, hnew⟩ := h
  exact ⟨kept, new, heq, hsub, fun r hr => hle.trans_lt (hnew r hr)⟩

theorem Later.trans {rows'' : List α} (h : Later key n rows rows') (h' : Later key n rows' rows'') : Later key n rows rows'' := by
  obtain ⟨kept, new, rfl, hsub, hnew⟩ := h
  obtain ⟨kept', new', rfl, hsub', hnew'⟩ := h'
  obtain ⟨kept₁, kept₂, rfl, hsub₁, hsub₂⟩ := List.sublist_append_iff.1 hsub'
  refine ⟨kept₁, kept₂ ++ new', List.append_assoc _ _ _, hsub₁.trans hsub, fun r hr => ?_⟩
  rcases List.mem_append.1 hr with hr | hr
  · exact hnew r (hsub₂.subset hr)
  · exact hnew' r hr

theorem Evolves.ordered (h : Evolves key n rows tables) : Ordered key rows := by
  cases tables with
  | nil => exact h
  | cons rows' tables => exact h.1

theorem mem_page (h : r ∈ page key p limit before rows) : r ∈ rows ∧ p r = true ∧ below key before r = true := by
  have hmem := List.mem_filter.1 (List.mem_reverse.1 (List.mem_of_mem_take h))
  rw [Bool.and_eq_true] at hmem
  exact hmem

/-- The rows of a page, from the last one on. -/
theorem page_descending (h : Ordered key rows) : (page key p limit before rows).Pairwise (fun a b => key b < key a) :=
  (List.pairwise_reverse.2 (h.filter _)).sublist (List.take_sublist _ _)

/-- The last row of a page is the least. -/
theorem le_of_getLast (h : Ordered key rows) (hlast : (page key p limit before rows).getLast? = some z)
    (hr : r ∈ page key p limit before rows) : key z ≤ key r := by
  obtain ⟨init, hinit⟩ := List.getLast?_eq_some_iff.1 hlast
  have hdesc : (page key p limit before rows).Pairwise (fun a b => key b < key a) := page_descending h
  rw [hinit] at hdesc hr
  rcases List.mem_append.1 hr with hr | hr
  · exact ((List.pairwise_append.1 hdesc).2.2 r hr z List.mem_cons_self).le
  · rw [List.mem_singleton.1 hr]

/-- What is not on a page is below all that is. -/
theorem mem_page_or_lt (h : Ordered key rows) (hr : r ∈ rows) (hp : p r = true) (hb : below key before r = true) :
    r ∈ page key p limit before rows ∨ ∀ x ∈ page key p limit before rows, key r < key x := by
  have hmem : r ∈ (rows.filter (fun r => p r && below key before r)).reverse :=
    List.mem_reverse.2 (List.mem_filter.2 ⟨hr, by rw [hp, hb]; rfl⟩)
  have hdesc : (rows.filter (fun r => p r && below key before r)).reverse.Pairwise (fun a b => key b < key a) :=
    List.pairwise_reverse.2 (h.filter _)
  rw [← List.take_append_drop limit (rows.filter _).reverse] at hmem hdesc
  rcases List.mem_append.1 hmem with hmem | hmem
  · exact Or.inl hmem
  · exact Or.inr fun x hx => (List.pairwise_append.1 hdesc).2.2 x hx r hmem

/-- An empty page is the end. -/
theorem page_eq_nil (hlimit : 0 < limit) (hnil : page key p limit before rows = []) (hr : r ∈ rows) (hp : p r = true) :
    below key before r = false := by
  by_contra hb
  rw [Bool.not_eq_false] at hb
  have hmem : r ∈ rows.filter (fun r => p r && below key before r) := List.mem_filter.2 ⟨hr, by rw [hp, hb]; rfl⟩
  rw [page, List.take_eq_nil_iff, List.reverse_eq_nil_iff] at hnil
  rcases hnil with h0 | hnil
  · omega
  · rw [hnil] at hmem
    cases hmem

/-! ### Many pages -/

/-- A page and what comes after it. -/
theorem crawl_cases (key : α → ℕ) (p : α → Bool) (limit : ℕ) (before : Option ℕ) (rows : List α) (tables : List (List α)) :
    page key p limit before rows = [] ∧ crawl key p limit before (rows :: tables) = [[]] ∨
      ∃ z, (page key p limit before rows).getLast? = some z ∧
        crawl key p limit before (rows :: tables) = page key p limit before rows :: crawl key p limit (some (key z)) tables := by
  rw [crawl]
  split
  · rename_i hnone
    rw [List.getLast?_eq_none_iff] at hnone
    exact Or.inl ⟨hnone, by rw [hnone]⟩
  · rename_i z hz
    exact Or.inr ⟨z, hz, rfl⟩

/-- Below a row there are fewer. -/
theorem length_filter_below_lt (hz : z ∈ rows) (hp : p z = true) (hb : below key before z = true) :
    (rows.filter (fun r => p r && below key (some (key z)) r)).length <
      (rows.filter (fun r => p r && below key before r)).length := by
  have hrefine : rows.filter (fun r => p r && below key (some (key z)) r) =
      (rows.filter (fun r => p r && below key before r)).filter (below key (some (key z))) := by
    rw [List.filter_filter]
    refine List.filter_congr fun r _ => ?_
    cases hr : below key (some (key z)) r with
    | false => rw [Bool.and_false, Bool.false_and]
    | true => rw [below_trans hb hr, Bool.true_and]
  rw [hrefine, List.length_filter_lt_length_iff_exists]
  refine ⟨z, List.mem_filter.2 ⟨hz, by rw [hp, hb]; rfl⟩, fun hzz => ?_⟩
  exact lt_irrefl _ (below_some hzz)

/-- **What the reader gets** is in order, without repetition, and from the table as it was at first. -/
theorem crawl_sound (he : Evolves key n rows tables) (hn : ∀ r ∈ rows, below key before r = true → key r ≤ n) :
    (crawl key p limit before (rows :: tables)).flatten.Pairwise (fun a b => key b < key a) ∧
      ∀ r ∈ (crawl key p limit before (rows :: tables)).flatten, r ∈ rows ∧ p r = true ∧ below key before r = true := by
  induction tables generalizing before rows with
  | nil =>
    rcases crawl_cases key p limit before rows [] with ⟨-, hcrawl⟩ | ⟨z, -, hcrawl⟩
    · rw [hcrawl]
      exact ⟨List.Pairwise.nil, fun r hr => by simp at hr⟩
    · rw [hcrawl, crawl, List.flatten_cons, List.flatten_nil, List.append_nil]
      exact ⟨page_descending he, fun r hr => mem_page hr⟩
  | cons rows' tables ih =>
    obtain ⟨hordered, hlater, hevolves⟩ := he
    rcases crawl_cases key p limit before rows (rows' :: tables) with ⟨-, hcrawl⟩ | ⟨z, hz, hcrawl⟩
    · rw [hcrawl]
      exact ⟨List.Pairwise.nil, fun r hr => by simp at hr⟩
    · have hzpage := mem_page (List.mem_of_getLast? hz)
      have hzn : key z ≤ n := hn z hzpage.1 hzpage.2.2
      -- what is below the last row of the page is not new
      obtain ⟨hdesc, hmem⟩ := ih hevolves fun r _ (hb : below key (some (key z)) r = true) => (below_some hb).le.trans hzn
      rw [hcrawl, List.flatten_cons]
      refine ⟨List.pairwise_append.2 ⟨page_descending hordered, hdesc, fun a ha b hb => ?_⟩, fun r hr => ?_⟩
      · exact (below_some (hmem b hb).2.2).trans_le (le_of_getLast hordered hz ha)
      · rcases List.mem_append.1 hr with hr | hr
        · exact mem_page hr
        · obtain ⟨hr', hp, hb⟩ := hmem r hr
          exact ⟨hlater.mem hr' ((below_some hb).le.trans hzn), hp, below_trans hzpage.2.2 hb⟩

/-- **A row that is there throughout** has been read when the reader is at the end. -/
theorem mem_crawl (hlimit : 0 < limit) (he : Evolves key n rows tables) (hthere : ∀ t ∈ rows :: tables, r ∈ t) (hp : p r = true)
    (hb : below key before r = true) (hend : [] ∈ crawl key p limit before (rows :: tables)) :
    r ∈ (crawl key p limit before (rows :: tables)).flatten := by
  induction tables generalizing before rows with
  | nil =>
    rcases crawl_cases key p limit before rows [] with ⟨hnil, -⟩ | ⟨z, hz, hcrawl⟩
    · have hno := page_eq_nil hlimit hnil (hthere rows List.mem_cons_self) hp
      rw [hb] at hno
      cases hno
    · rw [hcrawl, crawl, List.mem_singleton] at hend
      rw [← hend] at hz
      cases hz
  | cons rows' tables ih =>
    have hmem : r ∈ rows := hthere rows List.mem_cons_self
    rcases crawl_cases key p limit before rows (rows' :: tables) with ⟨hnil, -⟩ | ⟨z, hz, hcrawl⟩
    · have hno := page_eq_nil hlimit hnil hmem hp
      rw [hb] at hno
      cases hno
    · rw [hcrawl] at hend ⊢
      rw [List.flatten_cons, List.mem_append]
      have hrest : [] ∈ crawl key p limit (some (key z)) (rows' :: tables) := by
        rcases List.mem_cons.1 hend with heq | hend
        · rw [← heq] at hz
          cases hz
        · exact hend
      rcases mem_page_or_lt he.1 hmem hp hb with hpage | hlt
      · exact Or.inl hpage
      · exact Or.inr (ih he.2.2 (fun t ht => hthere t (List.mem_cons_of_mem _ ht))
          (decide_eq_true (hlt z (List.mem_of_getLast? hz))) hrest)

/-- **The reader gets to the end**, with at most one page for each row that there was, and one. -/
theorem crawl_ends (he : Evolves key n rows tables) (hn : ∀ r ∈ rows, below key before r = true → key r ≤ n)
    (hlen : (rows.filter (fun r => p r && below key before r)).length ≤ tables.length) :
    [] ∈ crawl key p limit before (rows :: tables) := by
  induction tables generalizing before rows with
  | nil =>
    have hnil : rows.filter (fun r => p r && below key before r) = [] := List.length_eq_zero_iff.1 (by simpa using hlen)
    rw [crawl, page, hnil]
    simp
  | cons rows' tables ih =>
    rcases crawl_cases key p limit before rows (rows' :: tables) with ⟨-, hcrawl⟩ | ⟨z, hz, hcrawl⟩
    · rw [hcrawl]
      exact List.mem_cons_self
    · obtain ⟨hzrows, hzp, hzb⟩ := mem_page (List.mem_of_getLast? hz)
      have hzn : key z ≤ n := hn z hzrows hzb
      rw [hcrawl]
      refine List.mem_cons_of_mem _ (ih he.2.2 (fun r _ hb => (below_some hb).le.trans hzn) ?_)
      obtain ⟨kept, new, rfl, hsub, hnew⟩ := he.2.1
      have hnone : new.filter (fun r => p r && below key (some (key z)) r) = [] := by
        rw [List.filter_eq_nil_iff]
        intro r hr hpr
        rw [Bool.and_eq_true] at hpr
        exact absurd ((below_some hpr.2).trans_le hzn) (not_lt.2 (hnew r hr).le)
      rw [List.filter_append, hnone, List.append_nil]
      have hle := (hsub.filter (fun r => p r && below key (some (key z)) r)).length_le
      have hfewer := length_filter_below_lt hzrows hzp hzb
      rw [List.length_cons] at hlen
      omega

end Velora.Lib.Paging
