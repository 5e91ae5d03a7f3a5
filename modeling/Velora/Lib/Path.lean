import Velora.Lib.Text

/-!
# Paths as text

The functions on paths that look at the text alone, as those of a file system with slashes. A cleaned path has its dots
first and names after them (`normal_kept`). When a path that was joined to a directory and cleaned still begins with the
directory, and the directory ends in a name, what was joined is names only (`joinPath_under`): this is what makes a test of
prefixes a test of where a path leads.
-/

namespace Velora.Lib.Path

open Velora.Lib

/-! ### Names -/

def dot : Str := ['.']

def dots : Str := ['.', '.']

/-- A name in a directory. -/
structure Proper (c : Str) : Prop where
  ne_nil : c ≠ []
  ne_dot : c ≠ dot
  ne_dots : c ≠ dots
  noSlash : '/' ∉ c

instance (c : Str) : Decidable (Proper c) :=
  decidable_of_iff (c ≠ [] ∧ c ≠ dot ∧ c ≠ dots ∧ '/' ∉ c)
    ⟨fun ⟨h₁, h₂, h₃, h₄⟩ => ⟨h₁, h₂, h₃, h₄⟩, fun ⟨h₁, h₂, h₃, h₄⟩ => ⟨h₁, h₂, h₃, h₄⟩⟩

/-- `strings.Split(path, "/")`. -/
def parts (path : Str) : List Str := path.splitOn '/'

/-- The text of parts. -/
def slashed (cs : List Str) : Str := List.intercalate ['/'] cs

/-- The parts of a path that are not empty, which are those that lead somewhere. -/
def elements (path : Str) : List Str := (parts path).filter (· ≠ [])

/-- `filepath.IsAbs`. -/
def isAbs (path : Str) : Bool := path.head? == some '/'

/-! ### Cleaning -/

/-- The parts that are kept, the last of them first, after one more. -/
def push (rooted : Bool) (stack : List Str) (c : Str) : List Str :=
  if c = [] ∨ c = dot then stack
  else if c = dots then
    match stack with
    | [] => if rooted then [] else [dots]
    | x :: above => if x = dots then dots :: stack else above
  else c :: stack

/-- The parts of a path that are left when it is cleaned. -/
def kept (path : Str) : List Str := ((parts path).foldl (push (isAbs path)) []).reverse

/-- `filepath.Clean`. -/
def cleanPath (path : Str) : Str :=
  if isAbs path then '/' :: slashed (kept path)
  else if kept path = [] then dot
  else slashed (kept path)

/-- `filepath.Join` of two. -/
def joinPath (a b : Str) : Str :=
  if a ≠ [] then cleanPath (a ++ '/' :: b)
  else if b ≠ [] then cleanPath b
  else []

/-- `filepath.Dir`. -/
def dirPath (path : Str) : Str := cleanPath (path.rdropWhile (· ≠ '/'))

/-! ### Parts and text -/

theorem slashed_parts (path : Str) : slashed (parts path) = path := List.intercalate_splitOn '/'

theorem parts_slashed {cs : List Str} (h : ∀ c ∈ cs, '/' ∉ c) (hne : cs ≠ []) : parts (slashed cs) = cs :=
  List.splitOn_intercalate '/' h hne

theorem parts_ne_nil (path : Str) : parts path ≠ [] := List.splitOn_ne_nil '/' path

theorem parts_append (a b : Str) : parts (a ++ '/' :: b) = parts a ++ parts b := List.splitOn_append_cons_self a b

theorem noSlash_parts {path c : Str} (h : c ∈ parts path) : '/' ∉ c := by
  induction path generalizing c with
  | nil =>
    rw [List.mem_singleton.1 h]
    exact List.not_mem_nil
  | cons x path ih =>
    rw [parts, List.splitOn_cons_eq_if_modifyHead] at h
    split at h
    · rcases List.mem_cons.1 h with rfl | htail
      · exact List.not_mem_nil
      · exact ih htail
    · rename_i hx
      obtain ⟨d, ds, hd⟩ := List.exists_cons_of_ne_nil (parts_ne_nil path)
      rw [parts] at hd
      rw [parts, hd] at ih
      rw [hd, List.modifyHead_cons] at h
      rcases List.mem_cons.1 h with rfl | htail
      · have hslash : '/' ≠ x := fun heq => hx (by rw [heq]; exact beq_self_eq_true x)
        exact List.not_mem_cons_of_ne_of_not_mem hslash (ih List.mem_cons_self)
      · exact ih (List.mem_cons_of_mem d htail)

theorem slashed_append {l m : List Str} (hl : l ≠ []) (hm : m ≠ []) : slashed (l ++ m) = slashed l ++ '/' :: slashed m := by
  induction l with
  | nil => exact absurd rfl hl
  | cons a l ih =>
    by_cases hnil : l = []
    · subst hnil
      rw [slashed, List.singleton_append, List.intercalate_cons_of_ne_nil hm, List.append_assoc, List.singleton_append, slashed,
        List.intercalate_singleton, slashed]
    · rw [slashed, List.cons_append, List.intercalate_cons_of_ne_nil (by simp [hnil]), slashed,
        List.intercalate_cons_of_ne_nil hnil]
      have htail := ih hnil
      rw [slashed, slashed] at htail
      rw [htail, List.append_assoc, List.append_assoc, List.append_assoc]

theorem slashed_concat {l : List Str} (hl : l ≠ []) (c : Str) : slashed (l ++ [c]) = slashed l ++ '/' :: c := by
  rw [slashed_append hl (List.cons_ne_nil c []), slashed, slashed, List.intercalate_singleton]

theorem isAbs_append {a : Str} (ha : a ≠ []) (b : Str) : isAbs (a ++ b) = isAbs a := by
  obtain ⟨x, a, rfl⟩ := List.exists_cons_of_ne_nil ha
  rfl

/-! ### Normal paths -/

/-- The parts of a cleaned path: its dots, of which a rooted path has none, and then names. -/
def Normal (rooted : Bool) (cs : List Str) : Prop :=
  ∃ k names, cs = List.replicate k dots ++ names ∧ (∀ c ∈ names, Proper c) ∧ (rooted = true → k = 0)

section

variable {rooted : Bool} {cs names stack : List Str}

theorem Normal.append (h : Normal rooted cs) (hnames : ∀ c ∈ names, Proper c) : Normal rooted (cs ++ names) := by
  obtain ⟨k, ns, rfl, hns, hk⟩ := h
  refine ⟨k, ns ++ names, List.append_assoc _ _ _, fun c hc => ?_, hk⟩
  rcases List.mem_append.1 hc with h | h
  · exact hns c h
  · exact hnames c h

/-- What stands after a name in a normal path is names. -/
theorem Normal.split {init : List Str} {c : Str} (hc : Proper c) (h : Normal rooted (init ++ [c] ++ names)) :
    Normal rooted (init ++ [c]) ∧ ∀ c ∈ names, Proper c := by
  obtain ⟨k, ns, heq, hns, hk⟩ := h
  rcases List.append_eq_append_iff.1 heq with ⟨a, ha, -⟩ | ⟨a, ha, hr⟩
  · have hdots : c ∈ List.replicate k dots := by simp [ha]
    exact absurd (List.eq_of_mem_replicate hdots) hc.ne_dots
  · rw [hr] at hns
    exact ⟨⟨k, a, ha, fun c hc => hns c (List.mem_append_left names hc), hk⟩,
      fun c hc => hns c (List.mem_append_right a hc)⟩

theorem Normal.ne_nil (h : Normal rooted cs) {c : Str} (hc : c ∈ cs) : c ≠ [] ∧ '/' ∉ c := by
  obtain ⟨k, ns, rfl, hns, -⟩ := h
  rcases List.mem_append.1 hc with h | h
  · rw [List.eq_of_mem_replicate h]
    decide
  · exact ⟨(hns c h).ne_nil, (hns c h).noSlash⟩

theorem push_name {c : Str} (hc : Proper c) (stack : List Str) : push rooted stack c = c :: stack := by
  unfold push
  rw [if_neg (not_or.2 ⟨hc.ne_nil, hc.ne_dot⟩), if_neg hc.ne_dots]

theorem push_dots_cons {c : Str} (hc : Proper c) (above : List Str) : push rooted (c :: above) dots = above := by
  have hpush : push rooted (c :: above) dots = if c = dots then dots :: c :: above else above := rfl
  rw [hpush, if_neg hc.ne_dots]

theorem foldl_push_names (h : ∀ c ∈ names, Proper c) (stack : List Str) :
    names.foldl (push rooted) stack = names.reverse ++ stack := by
  induction names generalizing stack with
  | nil => rfl
  | cons c names ih =>
    obtain ⟨hc, hnames⟩ := List.forall_mem_cons.1 h
    rw [List.foldl_cons, push_name hc, ih hnames, List.reverse_cons, List.append_assoc, List.singleton_append]

theorem foldl_push_dots (k : ℕ) : (List.replicate k dots).foldl (push false) [] = List.replicate k dots := by
  induction k with
  | zero => rfl
  | succ k ih =>
    rw [List.replicate_succ', List.foldl_append, ih, ← List.replicate_succ']
    cases k with
    | zero => rfl
    | succ k => rfl

/-- A normal path is kept as it is. -/
theorem Normal.foldl_push (h : Normal rooted cs) : cs.foldl (push rooted) [] = cs.reverse := by
  obtain ⟨k, ns, rfl, hns, hk⟩ := h
  rw [List.foldl_append, foldl_push_names hns, List.reverse_append, List.reverse_replicate]
  congr 1
  cases rooted with
  | true =>
    rw [hk rfl]
    rfl
  | false => exact foldl_push_dots k

/-- The parts that are kept stay normal. -/
theorem normal_push {c : Str} (hslash : '/' ∉ c) (h : Normal rooted stack.reverse) : Normal rooted (push rooted stack c).reverse := by
  by_cases hskip : c = [] ∨ c = dot
  · rw [push.eq_def, if_pos hskip]
    exact h
  by_cases hdots : c = dots
  · subst hdots
    cases stack with
    | nil =>
      cases rooted with
      | true => exact ⟨0, [], rfl, List.forall_mem_nil _, fun _ => rfl⟩
      | false => exact ⟨1, [], rfl, List.forall_mem_nil _, fun h => absurd h (by decide)⟩
    | cons x above =>
      obtain ⟨k, ns, heq, hns, hk⟩ := h
      rw [List.reverse_cons] at heq
      rcases List.eq_nil_or_concat ns with rfl | ⟨ns, y, rfl⟩
      · -- only dots are kept, and there are some of them
        rw [List.append_nil] at heq
        obtain rfl : x = dots := List.eq_of_mem_replicate (heq ▸ List.mem_concat_self)
        have hpush : push rooted (dots :: above) dots = dots :: dots :: above := rfl
        refine ⟨k + 1, [], ?_, List.forall_mem_nil _, fun hr => ?_⟩
        · rw [hpush, List.replicate_succ', List.append_nil, ← heq, List.reverse_cons, List.reverse_cons]
        · rw [hk hr] at heq
          exact absurd heq (by simp)
      · rw [List.concat_eq_append, ← List.append_assoc] at heq
        obtain ⟨habove, hy⟩ := List.append_inj' heq rfl
        obtain rfl : x = y := by simpa using hy
        rw [push_dots_cons (hns x (by simp)), habove]
        exact ⟨k, ns, rfl, fun c hc => hns c (by simp [hc]), hk⟩
  · rw [not_or] at hskip
    have hc : Proper c := ⟨hskip.1, hskip.2, hdots, hslash⟩
    rw [push_name hc, List.reverse_cons]
    exact h.append (List.forall_mem_singleton.2 hc)

end

/-! ### Cleaned paths -/

section

variable (path : Str)

/-- **What is kept is normal.** -/
theorem normal_kept : Normal (isAbs path) (kept path) := by
  have hfold : ∀ cs : List Str, (∀ c ∈ cs, '/' ∉ c) → ∀ stack, Normal (isAbs path) stack.reverse →
      Normal (isAbs path) (cs.foldl (push (isAbs path)) stack).reverse := by
    intro cs
    induction cs with
    | nil => exact fun _ _ h => h
    | cons c cs ih =>
      intro hcs stack h
      rw [List.forall_mem_cons] at hcs
      exact ih hcs.2 _ (normal_push hcs.1 h)
  exact hfold (parts path) (fun _ hc => noSlash_parts hc) [] ⟨0, [], rfl, List.forall_mem_nil _, fun _ => rfl⟩

example : [cleanPath "a//b/./c/..".toList, cleanPath "../x/../..".toList, cleanPath "/../a".toList] =
    ["a/b".toList, "../..".toList, "/a".toList] := by decide

/-- What stands in front of the parts of a rooted path. -/
def lead (rooted : Bool) : List Str := if rooted then [[]] else []

variable {path}

theorem cleanPath_eq (h : kept path ≠ []) : cleanPath path = slashed (lead (isAbs path) ++ kept path) := by
  unfold cleanPath lead
  split_ifs with habs
  · rw [slashed, slashed, List.singleton_append, List.intercalate_cons_of_ne_nil h]
    rfl
  · rfl

theorem parts_cleanPath (h : kept path ≠ []) : parts (cleanPath path) = lead (isAbs path) ++ kept path := by
  have hslash : ∀ c ∈ lead (isAbs path) ++ kept path, '/' ∉ c := by
    intro c hc
    rcases List.mem_append.1 hc with hc | hc
    · have hnil : c = [] := by
        unfold lead at hc
        split_ifs at hc
        · exact List.mem_singleton.1 hc
        · cases hc
      rw [hnil]
      exact List.not_mem_nil
    · exact ((normal_kept path).ne_nil hc).2
  rw [cleanPath_eq h, parts_slashed hslash (by simp [h])]

theorem isAbs_cleanPath (path : Str) : isAbs (cleanPath path) = isAbs path := by
  unfold cleanPath
  split_ifs with habs hnil
  · rw [habs]
    rfl
  · rw [Bool.not_eq_true] at habs
    rw [habs]
    rfl
  · rw [Bool.not_eq_true] at habs
    rw [habs]
    obtain ⟨c, cs, hcs⟩ := List.exists_cons_of_ne_nil hnil
    obtain ⟨hne, hslash⟩ := (normal_kept path).ne_nil (hcs ▸ List.mem_cons_self : c ∈ kept path)
    obtain ⟨x, c, rfl⟩ := List.exists_cons_of_ne_nil hne
    have hx : x ≠ '/' := fun h => hslash (h ▸ List.mem_cons_self)
    rw [hcs]
    cases cs <;> simp [slashed, isAbs, hx]

end

/-! ### Paths under a directory -/

/-- A cleaned path that ends in a name. -/
structure Settled (path : Str) (cs : List Str) : Prop where
  parts : parts path = lead (isAbs path) ++ cs
  normal : Normal (isAbs path) cs
  last : ∃ init c, cs = init ++ [c] ∧ Proper c

section

variable {dir : Str} {cs names : List Str}

theorem Settled.ne_nil (h : Settled dir cs) : cs ≠ [] := by
  obtain ⟨init, c, rfl, -⟩ := h.last
  exact List.append_ne_nil_of_right_ne_nil init (List.cons_ne_nil c [])

theorem Settled.dir_ne_nil (h : Settled dir cs) : dir ≠ [] := by
  rintro rfl
  have hcs : cs = [[]] := h.parts.symm
  exact (h.normal.ne_nil (hcs ▸ List.mem_cons_self)).1 rfl

theorem elements_eq {rooted : Bool} (h : parts dir = lead rooted ++ cs) (hcs : ∀ c ∈ cs, c ≠ []) : elements dir = cs := by
  have hfilter : cs.filter (· ≠ []) = cs := List.filter_eq_self.2 fun c hc => decide_eq_true (hcs c hc)
  rw [elements, h, List.filter_append, hfilter]
  unfold lead
  split <;> rfl

theorem Settled.elements (h : Settled dir cs) : elements dir = cs := elements_eq h.parts fun _ hc => (h.normal.ne_nil hc).1

/-- What is kept of a path that goes on from a settled one. -/
theorem Settled.kept_append (h : Settled dir cs) (path : Str) :
    kept (dir ++ '/' :: path) = ((Path.parts path).foldl (push (isAbs dir)) cs.reverse).reverse := by
  have hlead : (lead (isAbs dir)).foldl (push (isAbs dir)) [] = [] := by
    unfold lead
    split <;> rfl
  rw [kept, isAbs_append h.dir_ne_nil, parts_append, h.parts, List.foldl_append, List.foldl_append, hlead, h.normal.foldl_push]

/-- The path of names under a directory. -/
def under (dir : Str) (names : List Str) : Str := slashed (Path.parts dir ++ names)

theorem under_concat (dir : Str) (names : List Str) (c : Str) : under dir (names ++ [c]) = under dir names ++ '/' :: c := by
  rw [under, ← List.append_assoc, slashed_concat (by simp [parts_ne_nil]), under]

theorem under_of_ne_nil (dir : Str) (h : names ≠ []) : under dir names = dir ++ '/' :: slashed names := by
  rw [under, slashed_append (parts_ne_nil dir) h, slashed_parts]

variable (h : Settled dir cs) (hnames : ∀ c ∈ names, Proper c)

include h hnames

theorem Settled.under : Settled (under dir names) (cs ++ names) := by
  by_cases hne : names = []
  · subst hne
    rw [Path.under, List.append_nil, List.append_nil, slashed_parts]
    exact h
  have hparts : Path.parts (Path.under dir names) = Path.parts dir ++ names := by
    rw [under_of_ne_nil dir hne, parts_append, parts_slashed (fun c hc => (hnames c hc).noSlash) hne]
  have habs : isAbs (Path.under dir names) = isAbs dir := by
    rw [under_of_ne_nil dir hne, isAbs_append h.dir_ne_nil]
  refine ⟨?_, ?_, ?_⟩
  · rw [hparts, habs, h.parts, List.append_assoc]
  · rw [habs]
    exact h.normal.append hnames
  · obtain ⟨ns, c, rfl⟩ := (List.eq_nil_or_concat names).resolve_left hne
    exact ⟨cs ++ ns, c, by rw [List.concat_eq_append, List.append_assoc], hnames c (by simp)⟩

/-- Names are joined to a directory as they are. -/
theorem Settled.joinPath (hne : names ≠ []) : joinPath dir (slashed names) = Path.under dir names := by
  have hkept : kept (dir ++ '/' :: slashed names) = cs ++ names := by
    rw [h.kept_append, parts_slashed (fun c hc => (hnames c hc).noSlash) hne, foldl_push_names hnames, List.reverse_append,
      List.reverse_reverse, List.reverse_reverse]
  rw [Path.joinPath, if_pos h.dir_ne_nil, cleanPath_eq (by simp [hkept, hne]), hkept, isAbs_append h.dir_ne_nil,
    ← List.append_assoc, ← h.parts, Path.under]

/-- The directory of a path under a directory. -/
theorem Settled.dirPath {c : Str} (hc : Proper c) : dirPath (Path.under dir (names ++ [c])) = Path.under dir names := by
  have hunder := h.under hnames
  have hdrop : (Path.under dir names ++ '/' :: c).rdropWhile (· ≠ '/') = Path.under dir names ++ ['/'] := by
    have hname : ∀ x ∈ c.reverse, decide (x ≠ '/') = true := by
      intro x hx
      exact decide_eq_true fun heq => hc.noSlash (heq ▸ List.mem_reverse.1 hx)
    rw [List.rdropWhile, List.reverse_append, List.reverse_cons, List.append_assoc, List.dropWhile_append_of_pos hname]
    simp
  have hkept : kept (Path.under dir names ++ ['/']) = cs ++ names := by
    have hnil : Path.parts [] = [[]] := rfl
    rw [hunder.kept_append, hnil, List.foldl_cons, List.foldl_nil, push.eq_def, if_pos (Or.inl rfl), List.reverse_reverse]
  rw [under_concat, Path.dirPath, hdrop, cleanPath_eq (by simp [hkept, h.ne_nil]), hkept, isAbs_append hunder.dir_ne_nil,
    ← hunder.parts, slashed_parts]

end

/-- A cleaned path that begins with a directory ending in a name: the directory is clean. -/
theorem settled_of_begins {dir path c : Str} {es : List Str} (hdir : elements dir = es ++ [c]) (hc : Proper c)
    (hroot : isAbs path = isAbs dir) (hbegins : dir ++ ['/'] <+: cleanPath path) :
    Settled dir (es ++ [c]) ∧ ∃ rest, kept path = es ++ [c] ++ parts rest := by
  obtain ⟨rest, hrest⟩ := hbegins
  have hkept : kept path ≠ [] := by
    intro hnil
    have hone : (cleanPath path).length = 1 := by
      unfold cleanPath
      rw [hnil]
      split <;> rfl
    rw [← hrest, List.length_append, List.length_append, List.length_singleton] at hone
    have hempty : dir = [] := List.eq_nil_of_length_eq_zero (by omega)
    rw [hempty] at hdir
    exact absurd hdir.symm (List.append_ne_nil_of_right_ne_nil es (List.cons_ne_nil c []))
  have hparts : parts dir ++ parts rest = lead (isAbs dir) ++ kept path := by
    rw [← parts_append, ← hroot, ← parts_cleanPath hkept, ← hrest, List.append_assoc, List.singleton_append]
  obtain ⟨ds, hds⟩ : ∃ ds, parts dir = lead (isAbs dir) ++ ds := by
    cases habs : isAbs dir with
    | false => exact ⟨parts dir, rfl⟩
    | true =>
      obtain ⟨d, ds, hd⟩ := List.exists_cons_of_ne_nil (parts_ne_nil dir)
      rw [hd, habs] at hparts
      rw [hd]
      exact ⟨ds, congrArg (· :: ds) (List.cons.inj hparts).1⟩
  have hsplit : kept path = ds ++ parts rest := by
    rw [hds, List.append_assoc] at hparts
    exact (List.append_cancel_left hparts).symm
  have hnormal := normal_kept path
  rw [hroot, hsplit] at hnormal
  obtain rfl : ds = es ++ [c] := by
    rw [← hdir, elements_eq hds fun c hc => (hnormal.ne_nil (List.mem_append_left _ hc)).1]
  exact ⟨⟨hds, (hnormal.split hc).1, es, c, rfl, hc⟩, rest, hsplit⟩

/-- A cleaned path that is not rooted and does not climb with more behind it: it is `..` or names. -/
theorem cleanPath_cases {path : Str} (hdot : cleanPath path ≠ dot) (habs : isAbs (cleanPath path) = false)
    (hup : ¬ dots ++ ['/'] <+: cleanPath path) : cleanPath path = dots ∨ ∀ c ∈ parts (cleanPath path), Proper c := by
  rw [isAbs_cleanPath] at habs
  have hkept : kept path ≠ [] := by
    intro hnil
    rw [cleanPath, if_neg (by simp [habs]), if_pos hnil] at hdot
    exact hdot rfl
  obtain ⟨k, names, heq, hnames, -⟩ := normal_kept path
  have hparts : parts (cleanPath path) = List.replicate k dots ++ names := by
    rw [parts_cleanPath hkept, habs, heq]
    rfl
  cases k with
  | zero =>
    rw [hparts]
    exact Or.inr hnames
  | succ k =>
    rw [List.replicate_succ, List.cons_append] at hparts
    by_cases htail : List.replicate k dots ++ names = []
    · rw [← slashed_parts (cleanPath path), hparts, htail]
      exact Or.inl rfl
    · refine absurd ⟨slashed (List.replicate k dots ++ names), ?_⟩ hup
      rw [List.append_assoc, ← slashed_parts (cleanPath path), hparts]
      exact (slashed_append (List.cons_ne_nil dots []) htail).symm

/-- **A test of prefixes.** A path, cleaned and not rooted, is joined to a directory that ends in a name. If the result
begins with the directory, and what was joined did not climb with more behind it, the directory is clean and what was joined
are names. -/
theorem joinPath_under {dir path c : Str} {es : List Str} (hdir : elements dir = es ++ [c]) (hc : Proper c)
    (hdot : cleanPath path ≠ dot) (habs : isAbs (cleanPath path) = false) (hup : ¬ dots ++ ['/'] <+: cleanPath path)
    (hunder : dir ++ ['/'] <+: joinPath dir (cleanPath path)) :
    Settled dir (es ++ [c]) ∧ ∀ c ∈ parts (cleanPath path), Proper c := by
  have hne : dir ≠ [] := by
    rintro rfl
    exact absurd hdir.symm (List.append_ne_nil_of_right_ne_nil es (List.cons_ne_nil c []))
  rw [joinPath, if_pos hne] at hunder
  obtain ⟨hsettled, rest, hsplit⟩ := settled_of_begins hdir hc (isAbs_append hne _) hunder
  refine ⟨hsettled, (cleanPath_cases hdot habs hup).resolve_left fun hdots => ?_⟩
  -- `..` would lead above the directory
  have hparts : parts (cleanPath path) = [dots] := by
    rw [hdots]
    rfl
  have hclimb : kept (dir ++ '/' :: cleanPath path) = es := by
    rw [hsettled.kept_append, hparts, List.foldl_cons, List.foldl_nil, List.reverse_append, List.reverse_singleton,
      List.singleton_append, push_dots_cons hc, List.reverse_reverse]
  have hlength := congrArg List.length (hsplit.symm.trans hclimb)
  rw [List.length_append, List.length_append, List.length_singleton] at hlength
  omega

end Velora.Lib.Path
