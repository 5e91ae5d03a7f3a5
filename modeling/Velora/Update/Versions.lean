import Mathlib.Data.List.MinMax
import Mathlib.Data.List.Lex
import Mathlib.Data.Sum.Order
import Mathlib.Data.Prod.Lex
import Velora.Lib.Ip
import Velora.Lib.Loops

/-!
# Versions and releases

`internal/update/release.go`: the comparison of two versions and the choice of a release. What is compared is read from the
text first (`key`), and this reading is not one to one: the parts of a pre-release are numbers, so `rc.01` and `rc.1` have one
key. For two such texts the comparison has no case left and says that the first one is smaller, whichever it is.
-/

namespace Velora.Update

open Velora.Lib Velora.Lib.Text Velora.Lib.Ip

/-! ### Versions -/

/-- `strconv.ParseUint(s, 10, 64)`. -/
def parseUint (s : Str) : Option ℕ :=
  if s ≠ [] ∧ s.all Char.isDigit ∧ Nat.ofDigitChars 10 s 0 < 2 ^ 64 then some (Nat.ofDigitChars 10 s 0) else none

/-- What stands before the first hyphen. -/
def mainPart (version : Str) : Str := version.takeWhile (· ≠ '-')

/-- What stands after it. -/
def preRelease (version : Str) : Str := (version.dropWhile (· ≠ '-')).drop 1

def validVersion (version : Str) : Bool :=
  let parts := splitDots (mainPart version)
  parts.length = 3 && parts.all (fun part => (parseUint part).isSome)

/-- The three numbers. -/
def numbers (version : Str) : List ℕ :=
  (List.range 3).map (fun i => (parseUint ((splitDots (mainPart version)).getD i [])).getD 0)

/-- The loop over the numbers, with what it returns. -/
def compareNumbers : List ℕ → List ℕ → Option ℤ
  | a :: as, b :: bs => if a > b then some 1 else if a < b then some (-1) else compareNumbers as bs
  | _, _ => none

/-- The loop over the parts of two pre-releases and what follows it. -/
def compareParts : List Str → List Str → ℤ
  | a :: as, b :: bs =>
    match parseUint a, parseUint b with
    | some an, some bn => if an > bn then 1 else if an < bn then -1 else compareParts as bs
    | some _, none => -1
    | none, some _ => 1
    | none, none => if a > b then 1 else if a < b then -1 else compareParts as bs
  | _ :: _, [] => 1
  | [], _ => -1

def compareVersions (a b : Str) : ℤ :=
  if !validVersion b then 1
  else
    match compareNumbers (numbers a) (numbers b) with
    | some result => result
    | none =>
      let ap := preRelease a
      let bp := preRelease b
      if ap = bp then 0
      else if ap = [] then 1
      else if bp = [] then -1
      else compareParts (splitDots ap) (splitDots bp)

/-! ### The order behind the comparison -/

/-- A part of a pre-release: a number is before any other text. -/
def partKey (part : Str) : ℕ ⊕ₗ Str := (parseUint part).elim (Sum.inrₗ part) Sum.inlₗ

theorem partKey_number {part : Str} {n : ℕ} (h : parseUint part = some n) : partKey part = Sum.inlₗ n := by simp [partKey, h]

theorem partKey_text {part : Str} (h : parseUint part = none) : partKey part = Sum.inrₗ part := by simp [partKey, h]

theorem compareParts_values (as bs : List Str) : compareParts as bs = 1 ∨ compareParts as bs = -1 := by
  fun_induction compareParts as bs with
  | case3 _ _ _ _ _ _ _ _ _ _ ih => exact ih
  | case8 _ _ _ _ _ _ _ _ ih => exact ih
  | case1 | case5 | case6 | case9 => exact Or.inl rfl
  | case2 | case4 | case7 | case10 => exact Or.inr rfl

/-- The loop decides by the keys. -/
theorem compareParts_pos {as bs : List Str} : 0 < compareParts as bs ↔ bs.map partKey < as.map partKey := by
  fun_induction compareParts as bs with
  | case1 a as b bs an bn hb ha hgt => simp [partKey_number ha, partKey_number hb, List.cons_lt_cons_iff, hgt]
  | case2 a as b bs an bn hb ha hgt hlt =>
    have hne : bn ≠ an := by omega
    simp [partKey_number ha, partKey_number hb, List.cons_lt_cons_iff, hne, le_of_lt hlt]
  | case3 a as b bs an bn hb ha hgt hlt ih =>
    obtain rfl : an = bn := by omega
    simp [partKey_number ha, partKey_number hb, ih]
  | case4 a as b bs an hb ha => simp [partKey_number ha, partKey_text hb, List.cons_lt_cons_iff]
  | case5 a as b bs bn hb ha => simp [partKey_text ha, partKey_number hb, List.cons_lt_cons_iff]
  | case6 a as b bs hb ha hgt => simpa [partKey_text ha, partKey_text hb, List.cons_lt_cons_iff] using Or.inl hgt
  | case7 a as b bs hb ha hgt hlt =>
    have hne : b ≠ a := hlt.ne'
    simp [partKey_text ha, partKey_text hb, List.cons_lt_cons_iff, hne, le_of_lt hlt]
  | case8 a as b bs hb ha hgt hlt ih =>
    obtain rfl : a = b := le_antisymm (not_lt.1 hgt) (not_lt.1 hlt)
    simp [partKey_text ha, ih]
  | case9 a as => simp
  | case10 bs => simp

theorem compareNumbers_cases {as bs : List ℕ} (hlen : as.length = bs.length) :
    (bs < as ∧ compareNumbers as bs = some 1) ∨ (as < bs ∧ compareNumbers as bs = some (-1)) ∨
      (as = bs ∧ compareNumbers as bs = none) := by
  induction as generalizing bs with
  | nil =>
    obtain rfl : bs = [] := List.length_eq_zero_iff.1 hlen.symm
    exact Or.inr (Or.inr ⟨rfl, rfl⟩)
  | cons a as ih =>
    cases bs with
    | nil => simp at hlen
    | cons b bs =>
      rw [compareNumbers]
      rcases lt_trichotomy a b with hlt | rfl | hgt
      · rw [if_neg hlt.not_gt, if_pos hlt]
        exact Or.inr (Or.inl ⟨List.cons_lt_cons_iff.2 (Or.inl hlt), rfl⟩)
      · rw [if_neg (lt_irrefl a), if_neg (lt_irrefl a)]
        simpa [List.cons_lt_cons_iff] using ih (by simpa using hlen)
      · rw [if_pos hgt]
        exact Or.inl ⟨List.cons_lt_cons_iff.2 (Or.inl hgt), rfl⟩

/-- The second part of the key. -/
def preKey (version : Str) : WithTop (List (ℕ ⊕ₗ Str)) :=
  if preRelease version = [] then ⊤ else ((splitDots (preRelease version)).map partKey : List _)

/-- A version as it is compared: the numbers first, and a release comes after its pre-releases. -/
def key (version : Str) : List ℕ ×ₗ WithTop (List (ℕ ⊕ₗ Str)) := toLex (numbers version, preKey version)

theorem key_lt {a b : Str} : key a < key b ↔ numbers a < numbers b ∨ numbers a = numbers b ∧ preKey a < preKey b :=
  Prod.Lex.toLex_lt_toLex

theorem key_eq {a b : Str} : key a = key b ↔ numbers a = numbers b ∧ preKey a = preKey b := by
  rw [key, key, toLex_inj, Prod.mk.injEq]

/-- **What the comparison says**: the order of the keys, and that of two texts with one key the first one is smaller. -/
theorem compareVersions_cases (a : Str) {b : Str} (hb : validVersion b = true) :
    (key b < key a ∧ compareVersions a b = 1) ∨ (key a < key b ∧ compareVersions a b = -1) ∨
      (key a = key b ∧ preRelease a = preRelease b ∧ compareVersions a b = 0) ∨
      (key a = key b ∧ preRelease a ≠ preRelease b ∧ compareVersions a b = -1) := by
  have hlen : (numbers a).length = (numbers b).length := by simp [numbers]
  rw [key_lt, key_lt, key_eq, compareVersions, hb]
  obtain ⟨hlt, hc⟩ | ⟨hlt, hc⟩ | ⟨heq, hc⟩ := compareNumbers_cases hlen
  · exact Or.inl ⟨Or.inl hlt, by simp [hc]⟩
  · exact Or.inr (Or.inl ⟨Or.inl hlt, by simp [hc]⟩)
  · rw [heq] at hc
    simp only [Bool.not_true, Bool.false_eq_true, if_false, hc, heq, lt_irrefl, true_and, false_or, preKey]
    by_cases hpre : preRelease a = preRelease b
    · simp [hpre]
    · by_cases ha : preRelease a = []
      · have hb' : preRelease b ≠ [] := fun h => hpre (ha.trans h.symm)
        simp [ha, hb', Ne.symm hb']
      · by_cases hb' : preRelease b = []
        · simp [ha, hb']
        · have hpos := @compareParts_pos (splitDots (preRelease a)) (splitDots (preRelease b))
          simp only [hpre, ha, hb', if_false, WithTop.coe_lt_coe, WithTop.coe_inj, ne_eq, not_false_iff, true_and, false_and]
          rw [← hpos]
          rcases compareParts_values (splitDots (preRelease a)) (splitDots (preRelease b)) with hvalue | hvalue
          · simp [hvalue]
          · have hle := not_lt.1 (fun h => absurd (hpos.2 h) (by rw [hvalue]; decide))
            simpa [hvalue] using hle.lt_or_eq

section

variable {a b c : Str}

theorem compareVersions_pos (a : Str) (hb : validVersion b = true) : 0 < compareVersions a b ↔ key b < key a := by
  obtain ⟨hlt, hc⟩ | ⟨hlt, hc⟩ | ⟨heq, -, hc⟩ | ⟨heq, -, hc⟩ := compareVersions_cases a hb
  · simp [hc, hlt]
  · simp [hc, hlt.le]
  · simp [hc, heq]
  · simp [hc, heq]

/-- The versions have one key and two texts: they differ in the zeros that a number of a pre-release starts with. -/
def Twins (a b : Str) : Prop := key a = key b ∧ preRelease a ≠ preRelease b

/-- **Antisymmetry.** -/
theorem compareVersions_neg_iff (ha : validVersion a = true) (hb : validVersion b = true) :
    compareVersions a b = -compareVersions b a ↔ ¬ Twins a b := by
  unfold Twins
  obtain ⟨hlt, hc⟩ | ⟨hlt, hc⟩ | ⟨heq, hpre, hc⟩ | ⟨heq, hpre, hc⟩ := compareVersions_cases a hb
  · have hba : compareVersions b a = -1 := by
      obtain ⟨hlt', -⟩ | ⟨-, hc'⟩ | ⟨heq', -⟩ | ⟨heq', -⟩ := compareVersions_cases b ha
      · exact absurd hlt' hlt.not_gt
      · exact hc'
      · exact absurd heq' hlt.ne
      · exact absurd heq' hlt.ne
    simp [hc, hba, hlt.ne']
  · have hba : compareVersions b a = 1 := by
      obtain ⟨-, hc'⟩ | ⟨hlt', -⟩ | ⟨heq', -⟩ | ⟨heq', -⟩ := compareVersions_cases b ha
      · exact hc'
      · exact absurd hlt' hlt.not_gt
      · exact absurd heq' hlt.ne'
      · exact absurd heq' hlt.ne'
    simp [hc, hba, hlt.ne]
  · have hba : compareVersions b a = 0 := by
      obtain ⟨hlt, -⟩ | ⟨hlt, -⟩ | ⟨-, -, hc'⟩ | ⟨-, hpre', -⟩ := compareVersions_cases b ha
      · exact absurd heq hlt.ne
      · exact absurd heq hlt.ne'
      · exact hc'
      · exact absurd hpre.symm hpre'
    simp [hc, hba, hpre]
  · have hba : compareVersions b a = -1 := by
      obtain ⟨hlt, -⟩ | ⟨hlt, -⟩ | ⟨-, hpre', -⟩ | ⟨-, -, hc'⟩ := compareVersions_cases b ha
      · exact absurd heq hlt.ne
      · exact absurd heq hlt.ne'
      · exact absurd hpre'.symm hpre
      · exact hc'
    simp [hc, hba, heq, hpre]

end

/-! ### Releases -/

structure GithubAsset where
  name : Str := []
  url : Str := []
  size : ℤ := 0
  deriving DecidableEq

structure GithubRelease where
  tag : Str
  body : Str := []
  draft : Bool := false
  publishedAt : ℕ := 0
  assets : List GithubAsset
  deriving DecidableEq

structure Release where
  version : Str := []
  channel : Str := []
  publishedAt : ℕ := 0
  notes : Str := []
  architecture : Str := []
  downloadSize : ℤ := 0
  artifactURL : Str := []
  checksumURL : Str := []
  image : Str := []
  deriving DecidableEq

structure Resolver where
  repository : Str
  channel : Str := []
  apiBase : Str := []
  goos : Str := []
  goarch : Str := []

/-- The errors of `Resolve`: an invalid repository, an unsupported channel, an unsupported architecture, what goes wrong with
the request, an untrusted asset URL, and no eligible release. -/
inductive ResolveErr where
  | repository
  | channel (channel : Str)
  | architecture (goos goarch : Str)
  | discover (err : Str)
  | untrusted
  | noEligible
  deriving DecidableEq

def validRepository (repository : Str) : Bool :=
  let parts := repository.splitOn '/'
  parts.length = 2 && parts.all (fun part =>
    part ≠ [] && !part.any (fun c => c ∈ ['\\', '?', '#', '%']) && !decide ("..".toList <:+: part))

def releaseChannel (version : Str) : Str :=
  let lower := lower version
  if '-' ∉ lower ∨ "-rc.".toList <:+: lower then "stable".toList
  else if "-alpha.".toList <:+: lower then "alpha".toList
  else if "-beta.".toList <:+: lower then "beta".toList
  else "alpha".toList

/-- `strings.TrimPrefix(s, "v")`. -/
def trimV (s : Str) : Str := (cutPrefix ['v'] s).getD s

def githubAPI : Str := "https://api.github.com".toList

/-- What `Resolve` has found out before it asks for the releases. -/
structure Settings where
  repository : Str
  channel : Str
  goos : Str
  goarch : Str
  base : Str

/-- `Resolve` up to the request; `host` is the system it runs on. -/
def Resolver.settings (r : Resolver) (hostOS hostArch : Str) : Except ResolveErr Settings := do
  if !validRepository r.repository then .error .repository
  let channel := if r.channel = [] then "stable".toList else r.channel
  if channel ≠ "stable".toList ∧ channel ≠ "beta".toList ∧ channel ≠ "alpha".toList then .error (.channel channel)
  let goos := if r.goos = [] then hostOS else r.goos
  let goarch := if r.goarch = [] then hostArch else r.goarch
  if goos ≠ "linux".toList ∨ (goarch ≠ "amd64".toList ∧ goarch ≠ "arm64".toList) then .error (.architecture goos goarch)
  let trimmed := (r.apiBase.reverse.dropWhile (· = '/')).reverse
  .ok ⟨r.repository, channel, goos, goarch, if trimmed = [] then githubAPI else trimmed⟩

namespace Settings

def artifactName (s : Settings) (version : Str) : Str :=
  "velora-dns-".toList ++ version ++ '-' :: s.goos ++ '-' :: s.goarch ++ ".tar.gz".toList

/-- The last assets with the two names. -/
def assets (s : Settings) (version : Str) (assets : List GithubAsset) : GithubAsset × GithubAsset :=
  assets.foldl (fun found asset =>
    if asset.name = s.artifactName version then (asset, found.2)
    else if asset.name = "CHECKSUMS.sha256".toList then (found.1, asset)
    else found) ({}, {})

/-- The turn of the loop for one candidate, up to the choice. -/
def candidate (s : Settings) (installed : Str) (c : GithubRelease) : Except ResolveErr (Option Release) :=
  let version := trimV c.tag
  if c.draft then .ok none
  else if !validVersion version || releaseChannel version ≠ s.channel || compareVersions version (trimV installed) ≤ 0 then
    .ok none
  else
    let (artifact, checksum) := s.assets version c.assets
    if artifact.url = [] ∨ checksum.url = [] then .ok none
    else
      let trustedPrefix := "https://github.com/".toList ++ s.repository ++ "/releases/download/".toList
      if s.base = githubAPI ∧ (¬ trustedPrefix <+: artifact.url ∨ ¬ trustedPrefix <+: checksum.url) then .error .untrusted
      else .ok (some {
        version := version
        channel := s.channel
        publishedAt := c.publishedAt
        notes := c.body
        architecture := s.goos ++ '/' :: s.goarch
        downloadSize := artifact.size
        artifactURL := artifact.url
        checksumURL := checksum.url
        image := "ghcr.io/".toList ++ lower s.repository ++ ':' :: version })

/-- The choice between the release that is selected and another one. -/
def choose (selected resolved : Release) : Release :=
  if selected.version = [] ∨ compareVersions resolved.version selected.version > 0 then resolved else selected

/-- A turn of the loop. -/
def turn (s : Settings) (installed : Str) (selected : Release) (c : GithubRelease) : Except ResolveErr Release := do
  match ← s.candidate installed c with
  | none => .ok selected
  | some resolved => .ok (choose selected resolved)

/-- The loop and what follows it. -/
def select (s : Settings) (installed : Str) (releases : List GithubRelease) : Except ResolveErr Release := do
  let selected ← releases.foldlM (s.turn installed) {}
  if selected.version ≠ [] then .ok selected else .error .noEligible

end Settings

/-- `Resolve`; `answer` is what the request has brought. -/
def Resolver.resolve (r : Resolver) (hostOS hostArch installed : Str) (answer : Except Str (List GithubRelease)) :
    Except ResolveErr Release := do
  let s ← r.settings hostOS hostArch
  match answer with
  | .error err => .error (.discover err)
  | .ok releases => s.select installed releases

/-! ### The release that is selected -/

namespace Settings

variable {s : Settings} {installed : Str} {releases : List GithubRelease}

/-- The releases between which the loop chooses. -/
def eligible (s : Settings) (installed : Str) (releases : List GithubRelease) : List Release :=
  releases.filterMap (fun c => (s.candidate installed c).toOption.join)

/-- The loop comes to an asset URL that it does not trust. -/
def Untrusted (s : Settings) (installed : Str) (releases : List GithubRelease) : Prop :=
  ∃ c ∈ releases, s.candidate installed c = .error .untrusted

/-- A release that may be chosen, and no other one is greater. -/
def Greatest (s : Settings) (installed : Str) (releases : List GithubRelease) (x : Release) : Prop :=
  x ∈ s.eligible installed releases ∧ ∀ y ∈ s.eligible installed releases, compareVersions y.version x.version ≤ 0

theorem candidate_cases (s : Settings) (installed : Str) (c : GithubRelease) :
    s.candidate installed c = .error .untrusted ∨ s.candidate installed c = .ok none ∨
      ∃ x, s.candidate installed c = .ok (some x) ∧ validVersion x.version = true := by
  unfold candidate
  dsimp only
  split
  · exact Or.inr (Or.inl rfl)
  split
  · exact Or.inr (Or.inl rfl)
  · rename_i hskip
    split
    · exact Or.inr (Or.inl rfl)
    split
    · exact Or.inl rfl
    · refine Or.inr (Or.inr ⟨_, rfl, ?_⟩)
      simp only [Bool.or_eq_true, Bool.not_eq_true', not_or, Bool.not_eq_false] at hskip
      exact hskip.1.1

theorem valid_eligible {x : Release} (hx : x ∈ s.eligible installed releases) : validVersion x.version = true := by
  obtain ⟨c, -, hc⟩ := List.mem_filterMap.1 hx
  obtain h | h | ⟨y, h, hy⟩ := candidate_cases s installed c
  · simp [h, Except.toOption] at hc
  · simp [h, Except.toOption] at hc
  · obtain rfl : y = x := by simpa [h, Except.toOption] using hc
    exact hy

/-- **The loop**: one URL that is not trusted ends it, wherever it stands; else it is a choice among the eligible releases. -/
theorem foldlM_turn (s : Settings) (installed : Str) (releases : List GithubRelease) (selected : Release) :
    (s.Untrusted installed releases ∧ releases.foldlM (s.turn installed) selected = .error .untrusted) ∨
      (¬ s.Untrusted installed releases ∧
        releases.foldlM (s.turn installed) selected = .ok ((s.eligible installed releases).foldl choose selected)) := by
  induction releases generalizing selected with
  | nil => exact Or.inr ⟨by simp [Untrusted], rfl⟩
  | cons c releases ih =>
    have huntrusted : s.Untrusted installed (c :: releases) ↔
        s.candidate installed c = .error .untrusted ∨ s.Untrusted installed releases := by
      simp [Untrusted]
    rw [List.foldlM_cons, huntrusted, eligible, List.filterMap_cons]
    obtain h | h | ⟨x, h, -⟩ := candidate_cases s installed c
    · exact Or.inl ⟨Or.inl h, by simp [turn, h, bind, Except.bind]⟩
    · simpa [turn, h, bind, Except.bind, Except.toOption, eligible] using ih selected
    · simpa [turn, h, bind, Except.bind, Except.toOption, eligible] using ih (choose selected x)

theorem ne_nil_of_valid {v : Str} (h : validVersion v = true) : v ≠ [] := by
  rintro rfl
  revert h
  decide

/-- The choice is the first one of the greatest keys. -/
theorem foldl_choose {l : List Release} (h : ∀ x ∈ l, validVersion x.version = true) :
    l.foldl choose {} = (l.argmax (fun x => key x.version)).getD {} := by
  induction l using List.reverseRecOn with
  | nil => rfl
  | append_singleton l a ih =>
    have hl : ∀ x ∈ l, validVersion x.version = true := fun x hx => h x (List.mem_append_left _ hx)
    rw [List.foldl_append, List.foldl_cons, List.foldl_nil, ih hl, List.argmax_concat]
    cases hmax : l.argmax (fun x => key x.version) with
    | none => simp [choose]
    | some m =>
      have hm := hl m (List.argmax_mem hmax)
      simp only [Option.getD_some, choose, gt_iff_lt, compareVersions_pos _ hm, ne_nil_of_valid hm, false_or]
      split <;> rfl

theorem select_eq (s : Settings) (installed : Str) (releases : List GithubRelease) :
    (s.Untrusted installed releases ∧ s.select installed releases = .error .untrusted) ∨
      (¬ s.Untrusted installed releases ∧ s.select installed releases =
        match (s.eligible installed releases).argmax (fun x => key x.version) with
        | some x => .ok x
        | none => .error .noEligible) := by
  obtain ⟨hu, hfold⟩ | ⟨hu, hfold⟩ := foldlM_turn s installed releases {}
  · exact Or.inl ⟨hu, by simp [select, hfold, bind, Except.bind]⟩
  · refine Or.inr ⟨hu, ?_⟩
    rw [foldl_choose (fun x hx => valid_eligible hx)] at hfold
    simp only [select, hfold, bind, Except.bind]
    cases hmax : (s.eligible installed releases).argmax (fun x => key x.version) with
    | none => simp
    | some m => simp [ne_nil_of_valid (valid_eligible (List.argmax_mem hmax))]

theorem greatest_iff {x : Release} : s.Greatest installed releases x ↔
    x ∈ s.eligible installed releases ∧ ∀ y ∈ s.eligible installed releases, key y.version ≤ key x.version := by
  unfold Greatest
  refine and_congr_right fun hx => forall₂_congr fun y _ => ?_
  rw [← not_lt, compareVersions_pos _ (valid_eligible hx), not_lt]

theorem eligible_perm {l l' : List GithubRelease} (h : l'.Perm l) : (s.eligible installed l').Perm (s.eligible installed l) :=
  h.filterMap _

theorem untrusted_perm {l l' : List GithubRelease} (h : l'.Perm l) : s.Untrusted installed l' ↔ s.Untrusted installed l := by
  unfold Untrusted
  simp only [h.mem_iff]

theorem argmax_cons_of_greatest {α κ : Type} [LinearOrder κ] {f : α → κ} {a : α} {l : List α} (h : ∀ x ∈ l, f x ≤ f a) :
    (a :: l).argmax f = some a := by
  rw [List.argmax_cons]
  cases hmax : l.argmax f with
  | none => rfl
  | some m => exact if_neg (h m (List.argmax_mem hmax)).not_gt

/-- A release that may be chosen is chosen when it comes first and no other one is greater. -/
theorem select_first {x : Release} (hu : ¬ s.Untrusted installed releases) (hx : s.Greatest installed releases x) :
    ∃ l', l'.Perm releases ∧ s.select installed l' = .ok x := by
  rw [greatest_iff] at hx
  obtain ⟨c, hc, hcx⟩ := List.mem_filterMap.1 hx.1
  obtain ⟨l₁, l₂, rfl⟩ := List.append_of_mem hc
  have hperm : (c :: (l₁ ++ l₂)).Perm (l₁ ++ c :: l₂) := List.perm_middle.symm
  refine ⟨c :: (l₁ ++ l₂), hperm, ?_⟩
  obtain ⟨hu', -⟩ | ⟨-, hselect⟩ := select_eq s installed (c :: (l₁ ++ l₂))
  · exact absurd ((untrusted_perm hperm).1 hu') hu
  · have heligible : s.eligible installed (c :: (l₁ ++ l₂)) = x :: s.eligible installed (l₁ ++ l₂) := by
      rw [eligible, List.filterMap_cons, hcx]
      rfl
    have hfirst : (s.eligible installed (c :: (l₁ ++ l₂))).argmax (fun x => key x.version) = some x := by
      rw [heligible]
      refine argmax_cons_of_greatest fun y hy => hx.2 y ((eligible_perm hperm).mem_iff.1 ?_)
      rw [heligible]
      exact List.mem_cons_of_mem x hy
    rw [hselect, hfirst]

/-- What is selected is a greatest release. -/
theorem greatest_of_select {x : Release} (h : s.select installed releases = .ok x) : s.Greatest installed releases x := by
  rw [greatest_iff]
  obtain ⟨-, hselect⟩ | ⟨-, hselect⟩ := select_eq s installed releases
  · rw [hselect] at h
    cases h
  · rw [hselect] at h
    cases hmax : (s.eligible installed releases).argmax (fun x => key x.version) with
    | none => simp [hmax] at h
    | some m =>
      obtain rfl : m = x := by simpa [hmax] using h
      exact ⟨List.argmax_mem hmax, fun y hy => List.le_of_mem_argmax (f := fun x : Release => key x.version) hy hmax⟩

theorem select_of_eligible (hu : ¬ s.Untrusted installed releases) (hne : s.eligible installed releases ≠ []) :
    ∃ x, s.select installed releases = .ok x := by
  obtain ⟨hu', -⟩ | ⟨-, hselect⟩ := select_eq s installed releases
  · exact absurd hu' hu
  · cases hmax : (s.eligible installed releases).argmax (fun x => key x.version) with
    | none => exact absurd (List.argmax_eq_none.1 hmax) hne
    | some m => exact ⟨m, by rw [hselect, hmax]⟩

/-- **The order of the list.** -/
theorem select_perm_iff : (∀ l', l'.Perm releases →
      (s.select installed l').map Release.version = (s.select installed releases).map Release.version) ↔
    s.Untrusted installed releases ∨
      ∀ x y, s.Greatest installed releases x → s.Greatest installed releases y → x.version = y.version := by
  constructor
  · intro h
    by_cases hu : s.Untrusted installed releases
    · exact Or.inl hu
    · refine Or.inr fun x y hx hy => ?_
      obtain ⟨l₁, hl₁, hx'⟩ := select_first hu hx
      obtain ⟨l₂, hl₂, hy'⟩ := select_first hu hy
      have hsame := (h l₁ hl₁).trans (h l₂ hl₂).symm
      rw [hx', hy'] at hsame
      exact Except.ok.inj hsame
  · intro h l' hl'
    have hgreatest : ∀ {x}, s.Greatest installed l' x → s.Greatest installed releases x := by
      intro x hx
      exact ⟨(eligible_perm hl').mem_iff.1 hx.1, fun y hy => hx.2 y ((eligible_perm hl').mem_iff.2 hy)⟩
    obtain ⟨hu, hselect⟩ | ⟨hu, hselect⟩ := select_eq s installed releases
    · obtain ⟨-, hselect'⟩ | ⟨hu', -⟩ := select_eq s installed l'
      · rw [hselect, hselect']
      · exact absurd ((untrusted_perm hl').2 hu) hu'
    · have hu' : ¬ s.Untrusted installed l' := fun hu' => hu ((untrusted_perm hl').1 hu')
      by_cases hempty : s.eligible installed releases = []
      · have hempty' : s.eligible installed l' = [] := List.perm_nil.1 (hempty ▸ eligible_perm hl')
        obtain ⟨hu'', -⟩ | ⟨-, hselect'⟩ := select_eq s installed l'
        · exact absurd hu'' hu'
        · rw [hselect, hselect', hempty, hempty']
      · have hempty' : s.eligible installed l' ≠ [] := fun h' => hempty (List.nil_perm.1 (h' ▸ eligible_perm hl'))
        obtain ⟨x, hx⟩ := select_of_eligible hu hempty
        obtain ⟨x', hx'⟩ := select_of_eligible hu' hempty'
        have hsame := h.resolve_left hu x' x (hgreatest (greatest_of_select hx')) (greatest_of_select hx)
        rw [hx, hx', Except.map, Except.map, hsame]

end Settings

/-- **The order of versions and the choice of a release.** -/
theorem versions_order_iff (r : Resolver) (hostOS hostArch installed : Str) (releases : List GithubRelease) :
    (∀ a b, validVersion a = true → validVersion b = true →
      (compareVersions a b = -compareVersions b a ↔ ¬ Twins a b)) ∧
    (∀ a b c, validVersion a = true → validVersion b = true → validVersion c = true →
      (0 < compareVersions a b → 0 < compareVersions b c → 0 < compareVersions a c) ∧
      (compareVersions a b ≤ 0 → compareVersions b c ≤ 0 → compareVersions a c ≤ 0)) ∧
    ((∀ l', l'.Perm releases → (r.resolve hostOS hostArch installed (.ok l')).map Release.version =
        (r.resolve hostOS hostArch installed (.ok releases)).map Release.version) ↔
      ∀ s, r.settings hostOS hostArch = .ok s → s.Untrusted installed releases ∨
        ∀ x y, s.Greatest installed releases x → s.Greatest installed releases y → x.version = y.version) ∧
    ∀ s, r.settings hostOS hostArch = .ok s →
      (∀ x, r.resolve hostOS hostArch installed (.ok releases) = .ok x → s.Greatest installed releases x) ∧
      (¬ s.Untrusted installed releases → s.eligible installed releases ≠ [] →
        ∃ x, r.resolve hostOS hostArch installed (.ok releases) = .ok x) := by
  have hresolve : ∀ s l, r.settings hostOS hostArch = .ok s →
      r.resolve hostOS hostArch installed (.ok l) = s.select installed l := by
    intro s l hs
    simp [Resolver.resolve, hs, bind, Except.bind]
  refine ⟨fun a b ha hb => compareVersions_neg_iff ha hb, ?_, ?_, ?_⟩
  · intro a b c ha hb hc
    simp only [← not_lt, compareVersions_pos _ hb, compareVersions_pos _ hc]
    exact ⟨fun hab hbc => hbc.trans hab, fun hab hbc => not_lt.2 ((not_lt.1 hab).trans (not_lt.1 hbc))⟩
  · cases hs : r.settings hostOS hostArch with
    | error err => simp [Resolver.resolve, hs, bind, Except.bind]
    | ok s =>
      simp only [hresolve s _ hs, Except.ok.injEq, forall_eq']
      exact Settings.select_perm_iff
  · intro s hs
    rw [hresolve s _ hs]
    exact ⟨fun x hx => Settings.greatest_of_select hx, Settings.select_of_eligible⟩

namespace Resolver.Sample

def resolver : Resolver := { repository := "owner/repo".toList, apiBase := "http://local".toList }

/-- A release for one architecture. -/
def release (version : String) : GithubRelease where
  tag := ('v' :: version.toList)
  assets := [
    { name := "velora-dns-".toList ++ version.toList ++ "-linux-amd64.tar.gz".toList, url := "bundle".toList },
    { name := "CHECKSUMS.sha256".toList, url := "checksums".toList }]

def one : Str := "1.0.0-rc.1".toList

def zeroOne : Str := "1.0.0-rc.01".toList

end Resolver.Sample

open Velora.Update.Resolver.Sample in
/-- Two versions of which each is smaller than the other one, and the list decides which of them is selected. -/
theorem versions_twins : validVersion one = true ∧ validVersion zeroOne = true ∧
    compareVersions one zeroOne = -1 ∧ compareVersions zeroOne one = -1 ∧
    (resolver.resolve "linux".toList "amd64".toList "0.9.0".toList
      (.ok [release "1.0.0-rc.1", release "1.0.0-rc.01"])).map Release.version = .ok one ∧
    (resolver.resolve "linux".toList "amd64".toList "0.9.0".toList
      (.ok [release "1.0.0-rc.01", release "1.0.0-rc.1"])).map Release.version = .ok zeroOne := by
  decide +kernel

end Velora.Update
