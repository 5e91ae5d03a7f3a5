import Velora.Filtering.Names
import Velora.Lib.Loops

/-!
# Reading a blocklist

`ParseHosts` of `internal/filtering/parser.go`: one domain per line, or an address followed by its aliases. A list that is
accepted is not empty, has no domain twice, and all of its domains are ones a rule may have (`parseHosts_spec`).
-/

namespace Velora.Filtering

open Velora.Lib Velora.Lib.Text Velora.Lib.Ip Velora.Lib.Loops
open Velora.Zones (byteLen)

/-- The errors of the package; `storage` is one of the store, `failed` one without a kind of its own. -/
inductive Err where
  | invalid (detail : String)
  | notFound
  | exists
  | busy
  | storage (text : String)
  | failed (text : String)
  deriving DecidableEq

def maxListBytes : ℕ := 8388608
def maxDomains : ℕ := 100000

/-- The limit of the scanner: a line this long is not read. -/
def maxLineBytes : ℕ := 65536

/-- The names of the local host, which lists carry for other readers. -/
def localNames : List Str :=
  ["localhost".toList, "localhost.localdomain".toList, "ip6-localhost".toList, "ip6-loopback".toList,
    "broadcasthost".toList]

/-- `strings.Fields`. -/
def fields (s : Str) : List Str := (s.splitOnP isSpaceRune).filter (· ≠ [])

/-- One field of a line. -/
def parseField (line : ℕ) (out : List Str) (field : Str) : Except Err (List Str) :=
  match name (trimStar field) with
  | none => .error (.invalid ("invalid domain on line " ++ toString line))
  | some domain =>
    if (parseIP domain).isSome then .error (.invalid ("invalid domain on line " ++ toString line))
    else if domain ∈ localNames then .ok out
    else
      let domain := if "*.".toList.isPrefixOf field then "*.".toList ++ domain else domain
      if domain ∈ out then .ok out
      else if out.length + 1 > maxDomains then .error (.invalid "too many domains")
      else .ok (out ++ [domain])

/-- One line. -/
def parseLine (line : ℕ) (out : List Str) (raw : Str) : Except Err (List Str) :=
  if byteLen raw ≥ maxLineBytes then .error (.invalid "oversized or unreadable line")
  else
    let text := raw.takeWhile (· ≠ '#')
    match fields ((cutPrefix ['\ufeff'] text).getD text) with
    | [] => .ok out
    | first :: rest =>
      if (parseIP first).isSome then
        if rest = [] then .error (.invalid ("missing hosts alias on line " ++ toString line))
        else rest.foldlM (parseField line) out
      else if rest ≠ [] then .error (.invalid ("invalid domain line " ++ toString line))
      else [first].foldlM (parseField line) out

/-- `ParseHosts`. -/
def parseHosts (data : Str) : Except Err (List Str) :=
  if byteLen data > maxListBytes then .error (.invalid "source exceeds 8 MiB")
  else do
    let out ← ((data.splitOn '\n').zipIdx 1).foldlM (fun out (raw, line) => parseLine line out raw) []
    if out = [] then .error (.invalid "list has no valid domains") else .ok out

/-! ### The domains of a list -/

/-- A domain a rule may have. -/
def Usable (d : Str) : Prop := (name d).isSome = true

theorem name_star {v n : Str} (h : name v = some n) : name ("*.".toList ++ n) = some n := by
  have hhost := name_host h
  obtain ⟨-, hne, hlen, hlabels⟩ := name_eq_some.1 h
  refine name_eq_some.2 ⟨?_, hne, hlen, hlabels⟩
  have hlast : ("*.".toList ++ n).getLast? ≠ some '.' := by
    rw [List.getLast?_append_of_ne_nil _ hne]
    exact name_last h
  have hspaces : trimSpaces ("*.".toList ++ n) = "*.".toList ++ n := by
    have hrev : (n.reverse ++ ['.', '*']).dropWhile isSpaceRune = n.reverse ++ ['.', '*'] := by
      obtain ⟨c, cs, hc⟩ := List.exists_cons_of_ne_nil (fun h => hne (List.reverse_eq_nil_iff.1 h) : n.reverse ≠ [])
      have hmem : c ∈ n := List.mem_reverse.1 (hc ▸ List.mem_cons_self)
      rw [hc, List.cons_append, List.dropWhile_cons_of_neg (by simp [isSpaceRune_host (hhost c hmem)])]
    have hfirst : ("*.".toList ++ n).dropWhile isSpaceRune = "*.".toList ++ n :=
      List.dropWhile_cons_of_neg (by decide)
    unfold trimSpaces
    rw [hfirst, List.reverse_append]
    show ((n.reverse ++ ['.', '*']).dropWhile isSpaceRune).reverse = _
    rw [hrev, List.reverse_append, List.reverse_reverse]
    rfl
  have hlower : lower ("*.".toList ++ n) = "*.".toList ++ n := by
    rw [lower_append, lower_host hhost]
    rfl
  rw [hspaces, hlower, trimDot, if_neg hlast, trimStar, cutPrefix,
    if_pos (List.isPrefixOf_iff_prefix.2 (List.prefix_append _ _)), List.drop_left]
  rfl

/-- What a list is on the way: usable domains, none of them twice. -/
structure Listed (out : List Str) : Prop where
  usable : ∀ d ∈ out, Usable d
  nodup : out.Nodup

theorem parseField_listed {line : ℕ} {out out' : List Str} {field : Str} (h : Listed out)
    (hp : parseField line out field = .ok out') : Listed out' := by
  unfold parseField at hp
  split at hp
  · cases hp
  rename_i domain hdomain
  split at hp
  · cases hp
  split at hp
  · cases hp
    exact h
  have husable : Usable (if "*.".toList.isPrefixOf field then "*.".toList ++ domain else domain) := by
    unfold Usable
    split
    · rw [name_star hdomain]
      rfl
    · rw [name_name hdomain]
      rfl
  dsimp only at hp
  generalize (if "*.".toList.isPrefixOf field then "*.".toList ++ domain else domain) = d at hp husable
  split at hp
  · cases hp
    exact h
  rename_i hnew
  split at hp
  · cases hp
  cases hp
  refine ⟨fun x hx => ?_, List.nodup_append_comm.1 (List.nodup_cons.2 ⟨hnew, h.nodup⟩)⟩
  rcases List.mem_append.1 hx with hx | hx
  · exact h.usable x hx
  · rw [List.mem_singleton.1 hx]
    exact husable

theorem parseLine_listed {line : ℕ} {out out' : List Str} {raw : Str} (h : Listed out)
    (hp : parseLine line out raw = .ok out') : Listed out' := by
  have hloop : ∀ fs : List Str, fs.foldlM (parseField line) out = .ok out' → Listed out' := fun fs hfs =>
    foldlM_invariant (fun _ _ _ _ hb hstep => parseField_listed hb hstep) h hfs
  unfold parseLine at hp
  split at hp
  · cases hp
  dsimp only at hp
  split at hp
  · cases hp
    exact h
  split at hp
  · split at hp
    · cases hp
    · exact hloop _ hp
  · split at hp
    · cases hp
    · exact hloop _ hp

/-- **What `ParseHosts` accepts.** -/
theorem parseHosts_spec {data : Str} {out : List Str} (h : parseHosts data = .ok out) : out ≠ [] ∧ Listed out := by
  unfold parseHosts at h
  split at h
  · cases h
  obtain ⟨l, hl, hout⟩ := bind_eq_ok.1 h
  split at hout
  · cases hout
  rename_i hne
  cases hout
  refine ⟨hne, foldlM_invariant (P := Listed) ?_ ⟨by simp, List.nodup_nil⟩ hl⟩
  rintro ⟨raw, line⟩ - b b' hb hstep
  exact parseLine_listed hb hstep

example : parseHosts "# ads\n0.0.0.0 localhost Ads.Example\n*.t.example\n".toList =
    .ok ["ads.example".toList, "*.t.example".toList] := by decide +kernel

end Velora.Filtering
