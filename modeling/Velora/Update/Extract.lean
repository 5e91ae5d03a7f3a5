import Velora.Lib.Files

/-!
# Extraction of a release archive

`extractBundle` makes a directory and extracts the entries of an archive into it. The names of the entries are those of
whoever made the archive. Each of them is cleaned, joined to the directory and tested as text; the files are made only where
there is nothing, and the sizes in the headers are counted before the data is written. Whatever the archive holds, what is
made is in the directory (`extraction_contained`).
-/

namespace Velora.Update.Extraction

open Velora.Lib Velora.Lib.Path Velora.Lib.Files

/-! ### Archives -/

def typeReg : UInt8 := 0x30

def typeDir : UInt8 := 0x35

/-- An entry: its header and what can be read of its data. -/
structure TarEntry where
  name : Str
  typeflag : UInt8
  size : ℤ
  body : List UInt8

/-- What the system does while an entry is extracted: directories that it refuses to make, whether it opens the file, after
how many bytes the copy breaks off, and whether it closes the file. -/
structure Disk where
  refuses : List Str → Bool := fun _ => false
  opens : Bool := true
  breaks : Option ℕ := none
  closes : Bool := true

/-- An archive: whether the system makes the directory for it and opens it, its entries, and whether the reader comes to its
end after them. -/
structure TarArchive where
  makes : Bool := true
  opens : Bool := true
  entries : List (TarEntry × Disk)
  ends : Bool := true

/-- An error: one of the system or of the readers, which is passed on, one with this text, or the one for an entry of
another type, `unsupported archive entry` with its name in quotes. -/
inductive Failure where
  | system
  | said (text : String)
  | unsupported (name : Str)
  deriving DecidableEq

/-! ### Extraction -/

def maxExtractedBytes : ℤ := 2 ^ 30

/-- The variables of the loop, with the files. -/
structure State where
  tree : Tree
  root : Str := []
  extractedBytes : ℤ := 0

/-- `io.CopyN`: what is written, and whether all of it is. -/
def copyN (body : List UInt8) (n : ℕ) : Option ℕ → List UInt8 × Bool
  | some k => (body.take (min n k), false)
  | none => (body.take n, decide (n ≤ body.length))

/-- The loop for one entry: the error, or nothing. -/
def extractEntry (cwd : Loc) (destination : Str) (s : State) (header : TarEntry) (disk : Disk) : Option Failure × State :=
  let clean := cleanPath header.name
  if clean = dot ∨ isAbs clean ∨ dots ++ ['/'] <+: clean then (some (.said "unsafe path in release archive"), s)
  else
    let target := joinPath destination clean
    if ¬ destination ++ ['/'] <+: target then (some (.said "unsafe path in release archive"), s)
    else
      let s := if s.root = [] then { s with root := (parts clean).headD [] } else s
      if header.typeflag = typeDir then
        let made := s.tree.mkdirAll disk.refuses cwd target
        (if made.1 then none else some .system, { s with tree := made.2 })
      else if header.typeflag = typeReg then
        if header.size < 0 ∨ maxExtractedBytes - s.extractedBytes < header.size then (some (.said "release archive exceeds extracted size limit"), s)
        else
          let s := { s with extractedBytes := s.extractedBytes + header.size }
          let made := s.tree.mkdirAll disk.refuses cwd (dirPath target)
          let s := { s with tree := made.2 }
          if made.1 = false then (some .system, s)
          else
            let (written, copied) := copyN header.body header.size.toNat disk.breaks
            match if disk.opens then s.tree.createFile cwd target written else none with
            | none => (some .system, s)
            | some tree =>
              (if copied = false then some .system
                else if written.length ≠ header.size then some (.said "truncated release archive entry")
                else if disk.closes = false then some .system
                else none, { s with tree })
      else (some (.unsupported header.name), s)

/-- The loop. -/
def extractEntries (cwd : Loc) (destination : Str) (s : State) : List (TarEntry × Disk) → Option Failure × State
  | [] => (none, s)
  | e :: es =>
    match extractEntry cwd destination s e.1 e.2 with
    | (some err, s) => (some err, s)
    | (none, s) => extractEntries cwd destination s es

/-- `strings.TrimSuffix(s, ".tar.gz")`. -/
def trimTarGz (s : Str) : Str := if ".tar.gz".toList <:+ s then s.take (s.length - 7) else s

/-- What is returned after the loop: the error that ended it, or the path of what has been extracted. -/
def returned (destination : Str) (ends : Bool) : Option Failure × State → Except Failure Str
  | (some err, _) => .error err
  | (none, s) =>
    if ends = false then .error .system
    else if s.root = [] then .error (.said "release archive is empty")
    else .ok (joinPath destination s.root)

/-- `extractBundle`, with the files after it. -/
def extractBundle (t : Tree) (cwd : Loc) (archive : Str) (a : TarArchive) : Except Failure Str × Tree :=
  let destination := trimTarGz archive
  match if a.makes then t.mkdir cwd destination else none with
  | none => (.error .system, t)
  | some tree =>
    if a.opens = false then (.error .system, tree)
    else
      let done := extractEntries cwd destination { tree } a.entries
      (returned destination a.ends done, done.2.tree)

/-! ### What the entries do -/

/-- What happens while entries are extracted: the tree grows below the directory by no more than is counted, the count stays
within the limit, and the root is a name under a clean path. -/
structure Moves (destination : Str) (d : Loc) (s s' : State) : Prop where
  grows : Grows d (s'.extractedBytes - s.extractedBytes).toNat s.tree s'.tree
  counts : s.extractedBytes ≤ s'.extractedBytes
  budget : s.extractedBytes ≤ maxExtractedBytes → s'.extractedBytes ≤ maxExtractedBytes
  root : s'.root = s.root ∨ Settled destination (elements destination) ∧ Proper s'.root

section

variable {destination : Str} {cwd d : Loc} {s s' s'' : State}

theorem Moves.refl (destination : Str) (d : Loc) (s : State) : Moves destination d s s :=
  ⟨by rw [sub_self]; exact Grows.refl d s.tree, le_rfl, id, Or.inl rfl⟩

theorem Moves.trans (h : Moves destination d s s') (h' : Moves destination d s' s'') : Moves destination d s s'' where
  grows := by
    have hcounts := h.counts
    have hcounts' := h'.counts
    exact (h.grows.trans h'.grows).mono (by omega)
  counts := h.counts.trans h'.counts
  budget := h'.budget ∘ h.budget
  root := by
    rcases h'.root with heq | hroot
    · rw [heq]
      exact h.root
    · exact Or.inr hroot

theorem length_copyN (body : List UInt8) (n : ℕ) (breaks : Option ℕ) : (copyN body n breaks).1.length ≤ n := by
  cases breaks with
  | none => exact List.length_take_le n body
  | some k => exact (List.length_take_le _ body).trans (Nat.min_le_left n k)

theorem Moves.tree {tree : Tree} (h : Grows d 0 s.tree tree) : Moves destination d s { s with tree } :=
  ⟨h.mono (Nat.zero_le _), le_rfl, id, Or.inl rfl⟩

theorem Moves.named {root : Str} (hdestination : Settled destination (elements destination)) (hroot : Proper root) :
    Moves destination d s { s with root } :=
  ⟨by rw [sub_self]; exact Grows.refl d s.tree, le_rfl, id, Or.inr ⟨hdestination, hroot⟩⟩

theorem Moves.counted {tree : Tree} {n : ℕ} {size : ℤ}
    (hsize : ¬ (size < 0 ∨ maxExtractedBytes - s.extractedBytes < size)) (h : Grows d n s.tree tree) (hn : n ≤ size.toNat) :
    Moves destination d s { s with tree, extractedBytes := s.extractedBytes + size } := by
  have hpos : 0 ≤ size := by omega
  refine ⟨?_, by simpa using hpos, fun _ => ?_, Or.inl rfl⟩
  · rw [add_sub_cancel_left]
    exact h.mono hn
  · show s.extractedBytes + size ≤ maxExtractedBytes
    omega

/-- **What one entry does.** -/
theorem extractEntry_moves (hends : ∃ es c, elements destination = es ++ [c] ∧ Proper c)
    (home : Home (start cwd destination) (elements destination) d s.tree) (header : TarEntry) (disk : Disk) :
    Moves destination d s (extractEntry cwd destination s header disk).2 := by
  unfold extractEntry
  by_cases hname : cleanPath header.name = dot ∨ isAbs (cleanPath header.name) ∨ dots ++ ['/'] <+: cleanPath header.name
  · rw [if_pos hname]
    exact Moves.refl destination d s
  by_cases hunder : destination ++ ['/'] <+: joinPath destination (cleanPath header.name)
  swap
  · rw [if_neg hname, if_pos hunder]
    exact Moves.refl destination d s
  rw [if_neg hname, if_neg (not_not.2 hunder)]
  -- the target is the names of the entry under the directory
  obtain ⟨hdot, habs, hup⟩ : cleanPath header.name ≠ dot ∧ isAbs (cleanPath header.name) = false ∧
      ¬ dots ++ ['/'] <+: cleanPath header.name := by simpa using hname
  obtain ⟨es, c, hes, hc⟩ := hends
  obtain ⟨hsettled, hnames⟩ := joinPath_under hes hc hdot habs hup hunder
  rw [← hes] at hsettled
  have hne := parts_ne_nil (cleanPath header.name)
  have htarget : joinPath destination (cleanPath header.name) = under destination (parts (cleanPath header.name)) := by
    rw [← hsettled.joinPath hnames hne, slashed_parts]
  simp only [htarget]
  generalize parts (cleanPath header.name) = names at hnames hne ⊢
  -- the root
  have hhead : Proper (names.headD []) := by
    obtain ⟨n, ns, rfl⟩ := List.exists_cons_of_ne_nil hne
    exact hnames n List.mem_cons_self
  have hroot : Moves destination d s (if s.root = [] then { s with root := names.headD [] } else s) := by
    split_ifs
    · exact Moves.named hsettled hhead
    · exact Moves.refl destination d s
  have hhome := home.grows hroot.grows
  refine hroot.trans ?_
  generalize (if s.root = [] then { s with root := names.headD [] } else s) = s at hhome ⊢
  by_cases hdir : header.typeflag = typeDir
  · rw [if_pos hdir]
    exact Moves.tree (hhome.mkdirAll hsettled hnames disk.refuses)
  by_cases hreg : header.typeflag = typeReg
  swap
  · rw [if_neg hdir, if_neg hreg]
    exact Moves.refl destination d s
  by_cases hsize : header.size < 0 ∨ maxExtractedBytes - s.extractedBytes < header.size
  · rw [if_neg hdir, if_pos hreg, if_pos hsize]
    exact Moves.refl destination d s
  rw [if_neg hdir, if_pos hreg, if_neg hsize]
  -- the directory of the file, and the file in it
  have hmade := hhome.mkdirAll_dirPath hsettled hnames hne disk.refuses
  generalize s.tree.mkdirAll disk.refuses cwd (dirPath (under destination names)) = made at hmade ⊢
  have hlength := length_copyN header.body header.size.toNat disk.breaks
  by_cases hfailed : made.1 = false
  · rw [if_pos hfailed]
    exact Moves.counted hsize hmade (Nat.zero_le _)
  rw [if_neg hfailed]
  split
  · exact Moves.counted hsize hmade (Nat.zero_le _)
  · rename_i tree hfile
    rw [Option.ite_none_right_eq_some] at hfile
    have hgrows := hmade.trans ((hhome.grows hmade).createFile hsettled hnames hne hfile.2)
    exact Moves.counted hsize hgrows ((Nat.zero_add _).trans_le hlength)

theorem extractEntries_moves (hends : ∃ es c, elements destination = es ++ [c] ∧ Proper c) (entries : List (TarEntry × Disk))
    (home : Home (start cwd destination) (elements destination) d s.tree) :
    Moves destination d s (extractEntries cwd destination s entries).2 := by
  induction entries generalizing s with
  | nil => exact Moves.refl destination d s
  | cons e entries ih =>
    have hentry := extractEntry_moves hends home e.1 e.2
    rw [extractEntries]
    generalize extractEntry cwd destination s e.1 e.2 = step at hentry ⊢
    obtain ⟨err | _, s'⟩ := step
    · exact hentry.trans (ih (home.grows hentry.grows))
    · exact hentry

/-- The loop over more entries. -/
theorem extractEntries_append (s : State) (entries more : List (TarEntry × Disk)) :
    extractEntries cwd destination s (entries ++ more) =
      match extractEntries cwd destination s entries with
      | (some err, s) => (some err, s)
      | (none, s) => extractEntries cwd destination s more := by
  induction entries generalizing s with
  | nil => rfl
  | cons e entries ih =>
    rw [List.cons_append, extractEntries, extractEntries]
    generalize extractEntry cwd destination s e.1 e.2 = step
    obtain ⟨err | _, s'⟩ := step
    · exact ih s'
    · rfl

end

/-! ### What the extraction does -/

theorem returned_ok {destination path : Str} {ends : Bool} {done : Option Failure × State}
    (h : returned destination ends done = .ok path) : done.2.root ≠ [] ∧ path = joinPath destination done.2.root := by
  unfold returned at h
  split at h
  · cases h
  · split_ifs at h with hends hroot
    cases h
    exact ⟨hroot, rfl⟩

section

variable {t tree : Tree} {cwd d : Loc} {archive : Str} {a : TarArchive}
  (hmkdir : (if a.makes then t.mkdir cwd (trimTarGz archive) else none) = some tree)

include hmkdir

theorem extractBundle_made : extractBundle t cwd archive a = if a.opens = false then (.error .system, tree)
    else (returned (trimTarGz archive) a.ends (extractEntries cwd (trimTarGz archive) { tree } a.entries),
      (extractEntries cwd (trimTarGz archive) { tree } a.entries).2.tree) := by
  simp only [extractBundle, hmkdir]

variable (h : Made cwd (trimTarGz archive) d t tree)

include h

theorem extractBundle_grows : Grows d (2 ^ 30) tree (extractBundle t cwd archive a).2 := by
  rw [extractBundle_made hmkdir]
  split_ifs
  · exact (Grows.refl d tree).mono (Nat.zero_le _)
  · have hmove := extractEntries_moves h.ends a.entries (s := { tree }) h.home
    have hbudget := hmove.budget (show (0 : ℤ) ≤ maxExtractedBytes by decide)
    exact hmove.grows.mono (Int.toNat_le.2 (by simpa [maxExtractedBytes] using hbudget))

/-- More entries leave what is there. -/
theorem extractBundle_keeps (more : List (TarEntry × Disk)) {loc : Loc} {node : Node}
    (hnode : (extractBundle t cwd archive a).2.nodes.lookup loc = some node) :
    (extractBundle t cwd archive { a with entries := a.entries ++ more }).2.nodes.lookup loc = some node := by
  have hmove := extractEntries_moves h.ends a.entries (s := { tree }) h.home
  have hmore := extractBundle_made (a := { a with entries := a.entries ++ more }) hmkdir
  rw [extractBundle_made hmkdir] at hnode
  rw [hmore, extractEntries_append]
  split_ifs at hnode ⊢ with hopens
  · exact hnode
  · generalize extractEntries cwd (trimTarGz archive) { tree } a.entries = done at hnode hmove ⊢
    obtain ⟨err | _, s⟩ := done
    · exact (extractEntries_moves h.ends more (h.home.grows hmove.grows)).grows.kept loc node hnode
    · exact hnode

theorem extractBundle_path {path : Str} (hpath : (extractBundle t cwd archive a).1 = .ok path) :
    ∃ c, Proper c ∧ path = trimTarGz archive ++ '/' :: c := by
  have hmove := extractEntries_moves h.ends a.entries (s := { tree }) h.home
  rw [extractBundle_made hmkdir] at hpath
  split_ifs at hpath
  obtain ⟨hroot, rfl⟩ := returned_ok hpath
  obtain ⟨hsettled, hproper⟩ := hmove.root.resolve_left hroot
  refine ⟨_, hproper, ?_⟩
  have hjoin := hsettled.joinPath (List.forall_mem_singleton.2 hproper) (List.cons_ne_nil _ [])
  rwa [under_of_ne_nil _ (List.cons_ne_nil _ []), slashed, List.intercalate_singleton] at hjoin

end

/-- **The extraction of an archive.** Whatever its entries are and whatever the system refuses: all that is different
afterwards is the destination, which was not there, and what is strictly below it; nothing that is there when some of the
entries have been extracted is different when more of them have been; no more than 1 GiB of data is added; and the path that
is returned is a name under the destination. -/
theorem extraction_contained (t : Tree) (cwd : Loc) (archive : Str) (a : TarArchive) :
    (∀ loc, (extractBundle t cwd archive a).2.nodes.lookup loc ≠ t.nodes.lookup loc →
      ∃ d, d ∉ t.nodes ∧ (extractBundle t cwd archive a).2.nodes.lookup d = some .dir ∧
        (extractBundle t cwd archive a).2.locate cwd (trimTarGz archive) = some d ∧ (loc = d ∨ Below d loc)) ∧
    (∀ more loc node, (extractBundle t cwd archive a).2.nodes.lookup loc = some node →
      (extractBundle t cwd archive { a with entries := a.entries ++ more }).2.nodes.lookup loc = some node) ∧
    (extractBundle t cwd archive a).2.size ≤ t.size + 2 ^ 30 ∧
    ∀ path, (extractBundle t cwd archive a).1 = .ok path → ∃ c, Proper c ∧ path = trimTarGz archive ++ '/' :: c := by
  cases hmkdir : (if a.makes then t.mkdir cwd (trimTarGz archive) else none) with
  | none =>
    have hsame : ∀ entries, extractBundle t cwd archive { a with entries } = (.error .system, t) := by
      intro entries
      simp only [extractBundle, hmkdir]
    have hself : extractBundle t cwd archive a = (.error .system, t) := hsame a.entries
    rw [hself]
    refine ⟨fun _ h => absurd rfl h, fun more _ _ h => ?_, Nat.le_add_right _ _, nofun⟩
    rwa [hsame]
  | some tree =>
    obtain ⟨d, h⟩ := made_of_mkdir (Option.ite_none_right_eq_some.1 hmkdir).2
    have hgrows := extractBundle_grows hmkdir h
    exact ⟨fun loc hloc => ⟨d, h.contained hgrows hloc⟩, fun more loc node hnode => extractBundle_keeps hmkdir h more hnode,
      h.size_le hgrows, fun path hpath => extractBundle_path hmkdir h hpath⟩

end Velora.Update.Extraction
