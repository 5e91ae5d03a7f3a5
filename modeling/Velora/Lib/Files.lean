import Mathlib.Data.Finmap
import Velora.Lib.Path

/-!
# Trees of files

A file system is a tree of directories, files and links, in which a path leads somewhere: dots climb and links are followed,
as many of them as the system allows. A tree grows when nodes are made that were not there (`Grows`). Under a directory
without links a path of names leads to these names (`walk_names`), so that what is made under it by such paths is made in it
(`make_grows`, `makeAll_grows`).
-/

namespace Velora.Lib.Files

open Velora.Lib Velora.Lib.Path

/-! ### Trees -/

/-- A place in a tree: the names on the way to it, the last of them first. -/
abbrev Loc := List Str

inductive Node where
  | dir
  | file (data : List UInt8)
  | link (target : Str)
  deriving DecidableEq

/-- The bytes of data in a node. -/
def Node.size : Node → ℕ
  | .dir => 0
  | .file data => data.length
  | .link _ => 0

/-- A tree: it has a root, and what is in it is in a directory. -/
structure Tree where
  nodes : Finmap (fun _ : Loc => Node)
  root : nodes.lookup [] = some .dir
  closed : ∀ c loc, c :: loc ∈ nodes → nodes.lookup loc = some .dir

/-- Where a path starts. -/
def start (cwd : Loc) (path : Str) : Loc := if isAbs path then [] else cwd

/-- How many links are followed on the way. -/
def maxLinks : ℕ := 40

namespace Tree

/-- The bytes of data in a tree. -/
def size (t : Tree) : ℕ := (t.nodes.entries.map (fun e => e.2.size)).sum

/-- Where the elements of a path lead. -/
def walk (t : Tree) (links : ℕ) (loc : Loc) (es : List Str) : Option Loc :=
  match es with
  | [] => some loc
  | c :: es =>
    if c = dot then t.walk links loc es
    else if c = dots then t.walk links loc.tail es
    else
      match t.nodes.lookup (c :: loc) with
      | none => none
      | some .dir => t.walk links (c :: loc) es
      | some (.file _) => if es = [] then some (c :: loc) else none
      | some (.link target) =>
        match links with
        | 0 => none
        | links + 1 => t.walk links (start loc target) (elements target ++ es)
termination_by (links, es.length)

def locate (t : Tree) (cwd : Loc) (path : Str) : Option Loc :=
  if path = [] then none else t.walk maxLinks (start cwd path) (elements path)

/-- A new node in a directory, under a name that is not there. -/
def place (t : Tree) (parent : Loc) (c : Str) (node : Node) : Option Tree :=
  if h : t.nodes.lookup parent = some .dir ∧ c :: parent ∉ t.nodes then
    some {
      nodes := t.nodes.insert (c :: parent) node
      root := by rw [Finmap.lookup_insert_of_ne _ (List.cons_ne_nil c parent).symm, t.root]
      closed := by
        intro x loc hx
        have hkept : ∀ up, t.nodes.lookup up = some .dir → (t.nodes.insert (c :: parent) node).lookup up = some .dir := by
          intro up hup
          have hne : up ≠ c :: parent := by
            rintro rfl
            exact h.2 (Finmap.mem_of_lookup_eq_some hup)
          rw [Finmap.lookup_insert_of_ne _ hne, hup]
        rcases Finmap.mem_insert.1 hx with heq | hmem
        · rw [(List.cons.inj heq).2]
          exact hkept parent h.1
        · exact hkept loc (t.closed x loc hmem) }
  else none

/-- A new node at the end of a path. -/
def make (t : Tree) (loc : Loc) (es : List Str) (node : Node) : Option Tree :=
  match es.getLast? with
  | none => none
  | some c =>
    if c = dot ∨ c = dots then none
    else (t.walk maxLinks loc es.dropLast).bind (fun parent => t.place parent c node)

/-- The node at the end of a path, where a link is not followed. -/
def lstat (t : Tree) (loc : Loc) (es : List Str) : Option Node :=
  match es.getLast? with
  | none => t.nodes.lookup loc
  | some c =>
    if c = dot ∨ c = dots then (t.walk maxLinks loc es).bind t.nodes.lookup
    else (t.walk maxLinks loc es.dropLast).bind (fun parent => t.nodes.lookup (c :: parent))

/-- `os.Mkdir`. -/
def mkdir (t : Tree) (cwd : Loc) (path : Str) : Option Tree := t.make (start cwd path) (elements path) .dir

/-- `os.OpenFile` with `O_CREATE` and `O_EXCL`, and what is then written to the file. -/
def createFile (t : Tree) (cwd : Loc) (path : Str) (data : List UInt8) : Option Tree :=
  if path.getLast? = some '/' then none else t.make (start cwd path) (elements path) (.file data)

/-- The directories on a path, whose elements come last first; the system may refuse to make some of them. -/
def makeAll (refuses : List Str → Bool) (t : Tree) (loc : Loc) : List Str → Bool × Tree
  | [] => (decide (t.nodes.lookup loc = some .dir), t)
  | c :: es =>
    match t.walk maxLinks loc (c :: es).reverse with
    | some found => (decide (t.nodes.lookup found = some .dir), t)
    | none =>
      match t.makeAll refuses loc es with
      | (false, t) => (false, t)
      | (true, t) =>
        match if refuses (c :: es) then none else t.make loc (c :: es).reverse .dir with
        | some t => (true, t)
        | none => (decide (t.lstat loc (c :: es).reverse = some .dir), t)

/-- `os.MkdirAll`. -/
def mkdirAll (refuses : List Str → Bool) (t : Tree) (cwd : Loc) (path : Str) : Bool × Tree :=
  if path = [] then (false, t) else t.makeAll refuses (start cwd path) (elements path).reverse

end Tree

/-! ### Growth -/

/-- The place is strictly below the other. -/
def Below (d loc : Loc) : Prop := ∃ c up, loc = c :: up ∧ d <:+ up

/-- The tree has grown below a place, by files and directories with so much data. -/
structure Grows (d : Loc) (n : ℕ) (t t' : Tree) : Prop where
  kept : ∀ loc node, t.nodes.lookup loc = some node → t'.nodes.lookup loc = some node
  below : ∀ loc, loc ∉ t.nodes → loc ∈ t'.nodes → Below d loc
  plain : ∀ loc target, t'.nodes.lookup loc = some (.link target) → t.nodes.lookup loc = some (.link target)
  size : t'.size ≤ t.size + n

section

variable {d : Loc} {n m : ℕ} {t t' t'' : Tree}

theorem Grows.refl (d : Loc) (t : Tree) : Grows d 0 t t :=
  ⟨fun _ _ h => h, fun _ hno hyes => absurd hyes hno, fun _ _ h => h, le_rfl⟩

theorem Grows.trans (h : Grows d n t t') (h' : Grows d m t' t'') : Grows d (n + m) t t'' where
  kept loc node hnode := h'.kept loc node (h.kept loc node hnode)
  below loc hno hyes := by
    by_cases hmem : loc ∈ t'.nodes
    · exact h.below loc hno hmem
    · exact h'.below loc hmem hyes
  plain loc target hlink := h.plain loc target (h'.plain loc target hlink)
  size := by
    have h₁ := h.size
    have h₂ := h'.size
    omega

theorem Grows.mono (h : Grows d n t t') (hle : n ≤ m) : Grows d m t t' :=
  { h with size := h.size.trans (Nat.add_le_add_left hle _) }

theorem place_some {parent : Loc} {c : Str} {node : Node} (h : t.place parent c node = some t') :
    t.nodes.lookup parent = some .dir ∧ c :: parent ∉ t.nodes ∧ t'.nodes = t.nodes.insert (c :: parent) node := by
  unfold Tree.place at h
  split_ifs at h with hok
  cases h
  exact ⟨hok.1, hok.2, rfl⟩

/-- **A new node.** -/
theorem place_grows {parent : Loc} {c : Str} {node : Node} (h : t.place parent c node = some t') (hd : d <:+ parent)
    (hplain : ∀ target, node ≠ .link target) : Grows d node.size t t' := by
  obtain ⟨-, hnew, hnodes⟩ := place_some h
  refine ⟨?_, ?_, ?_, ?_⟩
  · intro loc x hx
    have hne : loc ≠ c :: parent := by
      rintro rfl
      exact hnew (Finmap.mem_of_lookup_eq_some hx)
    rw [hnodes, Finmap.lookup_insert_of_ne _ hne, hx]
  · intro loc hno hyes
    rw [hnodes] at hyes
    exact ⟨c, parent, (Finmap.mem_insert.1 hyes).resolve_right hno, hd⟩
  · intro loc target hlink
    by_cases heq : loc = c :: parent
    · rw [heq, hnodes, Finmap.lookup_insert, Option.some.injEq] at hlink
      exact absurd hlink (hplain target)
    · rwa [hnodes, Finmap.lookup_insert_of_ne _ heq] at hlink
  · have hentries : t'.nodes.entries = ⟨c :: parent, node⟩ ::ₘ t.nodes.entries := by
      rw [hnodes]
      exact Finmap.entries_insert_of_notMem hnew
    rw [Tree.size, hentries, Multiset.map_cons, Multiset.sum_cons, Tree.size, Nat.add_comm]

end

/-! ### Ways -/

section

variable {t t' : Tree} {links : ℕ} {loc d up p : Loc} {es names : List Str} {c : Str}

/-- A way stays when nodes are made. -/
theorem walk_kept (hkept : ∀ loc node, t.nodes.lookup loc = some node → t'.nodes.lookup loc = some node)
    (h : t.walk links loc es = some p) : t'.walk links loc es = some p := by
  fun_induction Tree.walk t links loc es with
  | case1 =>
    rw [Tree.walk]
    exact h
  | case2 links loc es ih =>
    rw [Tree.walk, if_pos rfl]
    exact ih h
  | case3 links loc es hdot ih =>
    rw [Tree.walk, if_neg hdot, if_pos rfl]
    exact ih h
  | case4 => cases h
  | case5 links loc c es hdot hdots hnode ih =>
    rw [Tree.walk, if_neg hdot, if_neg hdots, hkept _ _ hnode]
    exact ih h
  | case6 links loc c hdot hdots data hnode =>
    rw [Tree.walk, if_neg hdot, if_neg hdots, hkept _ _ hnode]
    exact h
  | case7 => cases h
  | case8 => cases h
  | case9 loc c es hdot hdots target hnode links ih =>
    rw [Tree.walk, if_neg hdot, if_neg hdots, hkept _ _ hnode]
    exact ih h

/-- The way on from a directory. -/
theorem walk_append (h : t.walk links loc es = some d) (hdir : t.nodes.lookup d = some .dir) :
    ∃ rest, ∀ names, t.walk links loc (es ++ names) = t.walk rest d names := by
  fun_induction Tree.walk t links loc es with
  | case1 links loc =>
    cases h
    exact ⟨links, fun _ => rfl⟩
  | case2 links loc es ih =>
    obtain ⟨rest, hrest⟩ := ih h
    refine ⟨rest, fun names => ?_⟩
    rw [List.cons_append, Tree.walk, if_pos rfl, hrest]
  | case3 links loc es hdot ih =>
    obtain ⟨rest, hrest⟩ := ih h
    refine ⟨rest, fun names => ?_⟩
    rw [List.cons_append, Tree.walk, if_neg hdot, if_pos rfl, hrest]
  | case4 => cases h
  | case5 links loc c es hdot hdots hnode ih =>
    obtain ⟨rest, hrest⟩ := ih h
    refine ⟨rest, fun names => ?_⟩
    rw [List.cons_append, Tree.walk, if_neg hdot, if_neg hdots, hnode]
    exact hrest names
  | case6 links loc c hdot hdots data hnode =>
    cases h
    rw [hnode] at hdir
    cases hdir
  | case7 => cases h
  | case8 => cases h
  | case9 loc c es hdot hdots target hnode links ih =>
    obtain ⟨rest, hrest⟩ := ih h
    refine ⟨rest, fun names => ?_⟩
    rw [List.cons_append, Tree.walk, if_neg hdot, if_neg hdots, hnode, ← hrest, List.append_assoc]

/-- There are no links below the place. -/
def Plain (d : Loc) (t : Tree) : Prop := ∀ loc target, Below d loc → t.nodes.lookup loc ≠ some (.link target)

/-- **Names lead down.** -/
theorem walk_names (hplain : Plain d t) (hnames : ∀ c ∈ names, Proper c) (hup : d <:+ up)
    (h : t.walk links up names = some p) : p = names.reverse ++ up := by
  induction names generalizing up with
  | nil =>
    rw [Tree.walk] at h
    exact (Option.some.inj h).symm
  | cons c names ih =>
    obtain ⟨hc, hnames⟩ := List.forall_mem_cons.1 hnames
    rw [Tree.walk, if_neg hc.ne_dot, if_neg hc.ne_dots] at h
    rw [List.reverse_cons, List.append_assoc, List.singleton_append]
    have hdown : d <:+ c :: up := hup.trans (List.suffix_cons c up)
    cases hnode : t.nodes.lookup (c :: up) with
    | none => simp [hnode] at h
    | some node =>
      rw [hnode] at h
      cases node with
      | dir => exact ih hnames hdown h
      | file data =>
        by_cases hend : names = []
        · rw [hend] at h ⊢
          exact (Option.some.inj h).symm
        · simp [hend] at h
      | link target => exact absurd hnode (hplain _ _ ⟨c, up, rfl, hup⟩)

/-! ### Directories of one's own -/

/-- The elements lead to a directory without links in it. -/
structure Home (loc : Loc) (es : List Str) (d : Loc) (t : Tree) : Prop where
  way : t.walk maxLinks loc es = some d
  dir : t.nodes.lookup d = some .dir
  plain : Plain d t

theorem Home.grows {n : ℕ} (h : Home loc es d t) (hg : Grows d n t t') : Home loc es d t' where
  way := walk_kept hg.kept h.way
  dir := hg.kept d .dir h.dir
  plain up target hbelow hlink := h.plain up target hbelow (hg.plain up target hlink)

section

variable (h : Home loc es d t) (hnames : ∀ c ∈ names, Proper c)

include h hnames

theorem Home.walk (hwalk : t.walk maxLinks loc (es ++ names) = some p) : p = names.reverse ++ d := by
  obtain ⟨rest, hrest⟩ := walk_append h.way h.dir
  rw [hrest] at hwalk
  exact walk_names h.plain hnames List.suffix_rfl hwalk

/-- **What is made by names under a directory is made in it.** -/
theorem Home.make (hne : names ≠ []) {node : Node} (hnode : ∀ target, node ≠ .link target)
    (hmake : t.make loc (es ++ names) node = some t') : Grows d node.size t t' := by
  obtain ⟨ns, c, rfl⟩ := (List.eq_nil_or_concat names).resolve_left hne
  rw [List.concat_eq_append] at hnames hmake
  rw [Tree.make, ← List.append_assoc, List.getLast?_concat, List.dropLast_concat] at hmake
  have hc := hnames c (by simp)
  simp only [hc.ne_dot, hc.ne_dots, or_self, if_false] at hmake
  obtain ⟨parent, hparent, hplace⟩ := Option.bind_eq_some_iff.1 hmake
  have hp : parent = ns.reverse ++ d := h.walk (fun c hc => hnames c (List.mem_append_left _ hc)) hparent
  exact place_grows hplace (hp ▸ List.suffix_append _ _) hnode

theorem Home.makeAll (refuses : List Str → Bool) : Grows d 0 t (t.makeAll refuses loc (es ++ names).reverse).2 := by
  induction names using List.reverseRecOn with
  | nil =>
    have hsame : (t.makeAll refuses loc (es ++ []).reverse).2 = t := by
      rw [List.append_nil]
      cases hrev : es.reverse with
      | nil => rfl
      | cons c up =>
        rw [Tree.makeAll, ← hrev, List.reverse_reverse, h.way]
    rw [hsame]
    exact Grows.refl d t
  | append_singleton ns c ih =>
    have hgrown := ih fun c hc => hnames c (List.mem_append_left _ hc)
    have hrev : (es ++ (ns ++ [c])).reverse = c :: (es ++ ns).reverse := by
      rw [← List.append_assoc, List.reverse_append, List.reverse_singleton, List.singleton_append]
    rw [hrev, Tree.makeAll, ← hrev, List.reverse_reverse]
    cases t.walk maxLinks loc (es ++ (ns ++ [c])) with
    | some found => exact Grows.refl d t
    | none =>
      generalize t.makeAll refuses loc (es ++ ns).reverse = above at hgrown ⊢
      obtain ⟨made, t₁⟩ := above
      cases made with
      | false => exact hgrown
      | true =>
        simp only
        split
        · rename_i t₂ hmake
          rw [Option.ite_none_left_eq_some] at hmake
          have hne : ns ++ [c] ≠ [] := by simp
          have hdir : ∀ target, Node.dir ≠ .link target := nofun
          exact hgrown.trans ((h.grows hgrown).make hnames hne hdir hmake.2)
        · exact hgrown

end

theorem mem_of_suffix (hd : d <:+ loc) (h : loc ∈ t.nodes) : d ∈ t.nodes := by
  induction loc with
  | nil => rwa [List.suffix_nil.1 hd]
  | cons c loc ih =>
    rcases List.suffix_cons_iff.1 hd with rfl | hd
    · exact h
    · exact ih hd (Finmap.mem_of_lookup_eq_some (t.closed c loc h))

/-- A directory that has been made has nothing in it. -/
theorem home_of_make (hc : Proper c) (h : t.make loc (es ++ [c]) .dir = some t') :
    ∃ d, d ∉ t.nodes ∧ t'.nodes = t.nodes.insert d .dir ∧ Grows d.tail 0 t t' ∧ Home loc (es ++ [c]) d t' := by
  rw [Tree.make, List.getLast?_concat, List.dropLast_concat] at h
  simp only [hc.ne_dot, hc.ne_dots, or_self, if_false] at h
  obtain ⟨parent, hparent, hplace⟩ := Option.bind_eq_some_iff.1 h
  obtain ⟨hdir, hnew, hnodes⟩ := place_some hplace
  have hgrows : Grows parent 0 t t' := place_grows hplace List.suffix_rfl nofun
  have hmade : t'.nodes.lookup (c :: parent) = some .dir := by rw [hnodes, Finmap.lookup_insert]
  refine ⟨c :: parent, hnew, hnodes, hgrows, ?_, hmade, ?_⟩
  · obtain ⟨rest, hrest⟩ := walk_append (walk_kept hgrows.kept hparent) (hgrows.kept parent .dir hdir)
    rw [hrest, Tree.walk, if_neg hc.ne_dot, if_neg hc.ne_dots, hmade]
    rw [Tree.walk]
  · rintro up target ⟨x, above, rfl, hbelow⟩ hlink
    have hmem := Finmap.mem_of_lookup_eq_some (hgrows.plain _ target hlink)
    exact hnew (mem_of_suffix (hbelow.trans (List.suffix_cons x above)) hmem)

end

/-! ### Paths under a directory of one's own -/

section

variable {t t' t'' : Tree} {n : ℕ} {cwd d : Loc} {dir : Str} {cs names : List Str}

/-- The directory has been made at this place. -/
structure Made (cwd : Loc) (dir : Str) (d : Loc) (t t' : Tree) : Prop where
  ends : ∃ es c, elements dir = es ++ [c] ∧ Proper c
  new : d ∉ t.nodes
  nodes : t'.nodes = t.nodes.insert d .dir
  grows : Grows d.tail 0 t t'
  home : Home (start cwd dir) (elements dir) d t'

theorem made_of_mkdir (h : t.mkdir cwd dir = some t') : ∃ d, Made cwd dir d t t' := by
  rw [Tree.mkdir] at h
  rcases List.eq_nil_or_concat (elements dir) with hnil | ⟨es, c, hes⟩
  · rw [hnil] at h
    cases h
  rw [List.concat_eq_append] at hes
  have hmem : c ∈ parts dir ∧ c ≠ [] := by
    have hfilter : c ∈ elements dir := by simp [hes]
    simpa [elements] using hfilter
  have hdots : c ≠ dot ∧ c ≠ dots := by
    rw [hes, Tree.make, List.getLast?_concat] at h
    simp only at h
    split_ifs at h with hdots
    exact not_or.1 hdots
  have hc : Proper c := ⟨hmem.2, hdots.1, hdots.2, noSlash_parts hmem.1⟩
  have hmake := h
  rw [hes] at hmake
  obtain ⟨d, hnew, hnodes, hgrows, hhome⟩ := home_of_make hc hmake
  exact ⟨d, ⟨es, c, hes, hc⟩, hnew, hnodes, hgrows, hes ▸ hhome⟩

theorem Home.locate (h : Home (start cwd dir) (elements dir) d t) (hne : elements dir ≠ []) : t.locate cwd dir = some d := by
  have hdir : dir ≠ [] := by
    rintro rfl
    exact hne rfl
  rw [Tree.locate, if_neg hdir, h.way]

/-- **What is different after a directory has been made and has grown** is the directory and what is below it. -/
theorem Made.contained (h : Made cwd dir d t t') (hg : Grows d n t' t'') {loc : Loc}
    (hloc : t''.nodes.lookup loc ≠ t.nodes.lookup loc) :
    d ∉ t.nodes ∧ t''.nodes.lookup d = some .dir ∧ t''.locate cwd dir = some d ∧ (loc = d ∨ Below d loc) := by
  have hhome := h.home.grows hg
  have hne : elements dir ≠ [] := by
    obtain ⟨es, c, hes, -⟩ := h.ends
    simp [hes]
  have hno : loc ∉ t.nodes := by
    intro hmem
    obtain ⟨node, hnode⟩ := Finmap.mem_iff.1 hmem
    exact hloc ((hg.kept loc node (h.grows.kept loc node hnode)).trans hnode.symm)
  have hyes : loc ∈ t''.nodes := by
    by_contra hnot
    exact hloc ((Finmap.lookup_eq_none.2 hnot).trans (Finmap.lookup_eq_none.2 hno).symm)
  refine ⟨h.new, hhome.dir, hhome.locate hne, ?_⟩
  by_cases hmem : loc ∈ t'.nodes
  · rw [h.nodes] at hmem
    exact Or.inl ((Finmap.mem_insert.1 hmem).resolve_right hno)
  · exact Or.inr (hg.below loc hmem hyes)

theorem Made.size_le (h : Made cwd dir d t t') (hg : Grows d n t' t'') : t''.size ≤ t.size + n := by
  have hmade := h.grows.size
  have hgrown := hg.size
  omega

variable (h : Home (start cwd dir) cs d t) (hdir : Settled dir cs) (hnames : ∀ c ∈ names, Proper c)

include hdir in
theorem start_under (names : List Str) : start cwd (under dir names) = start cwd dir := by
  by_cases hne : names = []
  · rw [hne, under, List.append_nil, slashed_parts]
  · rw [start, start, under_of_ne_nil dir hne, isAbs_append hdir.dir_ne_nil]

include h hdir hnames

theorem Home.mkdirAll (refuses : List Str → Bool) : Grows d 0 t (t.mkdirAll refuses cwd (under dir names)).2 := by
  have hunder := hdir.under hnames
  rw [Tree.mkdirAll, if_neg hunder.dir_ne_nil, start_under hdir, hunder.elements]
  exact h.makeAll hnames refuses

/-- The directories on the way to a path under the directory. -/
theorem Home.mkdirAll_dirPath (hne : names ≠ []) (refuses : List Str → Bool) :
    Grows d 0 t (t.mkdirAll refuses cwd (dirPath (under dir names))).2 := by
  obtain ⟨ns, c, rfl⟩ := (List.eq_nil_or_concat names).resolve_left hne
  rw [List.concat_eq_append] at hnames ⊢
  have hns : ∀ c ∈ ns, Proper c := fun c hc => hnames c (List.mem_append_left _ hc)
  rw [hdir.dirPath hns (hnames c (by simp))]
  exact h.mkdirAll hdir hns refuses

theorem Home.createFile (hne : names ≠ []) {data : List UInt8} (hfile : t.createFile cwd (under dir names) data = some t') :
    Grows d data.length t t' := by
  have hunder := hdir.under hnames
  rw [Tree.createFile, Option.ite_none_left_eq_some, start_under hdir, hunder.elements] at hfile
  have hnode : ∀ target, Node.file data ≠ .link target := nofun
  exact h.make hnames hne hnode hfile.2

end

end Velora.Lib.Files
