import Velora.Lib.Text

/-!
# Addresses in text

`netip.ParseAddr` and `net.ParseIP`: what they accept, and the bytes they give. An address is the list of its four or
sixteen bytes.
-/

namespace Velora.Lib.Ip

open Velora.Lib.Text

/-! ### Dotted decimal -/

/-- One field of a dotted address: decimal, without a leading zero, below 256. -/
def octet (s : Str) : Option UInt8 :=
  if s ≠ [] ∧ s.all Char.isDigit ∧ (s.length = 1 ∨ s.head? ≠ some '0') ∧ s.length ≤ 3 ∧
      Nat.ofDigitChars 10 s 0 ≤ 255 then
    some (UInt8.ofNat (Nat.ofDigitChars 10 s 0))
  else none

/-- The parts of a text between the dots. -/
def splitDots (s : Str) : List Str := s.splitOn '.'

/-- `parseIPv4`. -/
def parseIPv4 (s : Str) : Option (List UInt8) :=
  if (splitDots s).length = 4 then (splitDots s).mapM octet else none

/-! ### Colon-separated groups -/

def hexDigit (c : Char) : Option ℕ :=
  if c.isDigit then some (c.toNat - 48)
  else if 'a' ≤ c ∧ c ≤ 'f' then some (c.toNat - 87)
  else if 'A' ≤ c ∧ c ≤ 'F' then some (c.toNat - 55)
  else none

/-- The hexadecimal digits a text starts with, and the rest. -/
def hexPrefix (s : Str) : Str × Str := s.span (fun c => (hexDigit c).isSome)

def hexValue (s : Str) : ℕ := s.foldl (fun n c => n * 16 + (hexDigit c).getD 0) 0

/-- The loop of `parseIPv6` over the groups: `ip` holds the bytes so far and `gap` the place of the `::`. The result is
the bytes and the place, or nothing for a malformed text. -/
def groups : ℕ → List UInt8 → Option ℕ → Str → Option (List UInt8 × Option ℕ)
  | 0, ip, gap, s => if s = [] then some (ip, gap) else none
  | n + 1, ip, gap, s =>
    let (digits, rest) := hexPrefix s
    if digits = [] ∨ digits.length > 4 then none
    else if rest.head? = some '.' then
      -- an IPv4 address ends the text
      if (gap = none ∧ ip.length ≠ 12) ∨ ip.length + 4 > 16 then none
      else (parseIPv4 s).map (fun v4 => (ip ++ v4, gap))
    else
      let v := hexValue digits
      let ip := ip ++ [UInt8.ofNat (v / 256), UInt8.ofNat (v % 256)]
      match rest with
      | [] => some (ip, gap)
      | ':' :: [] => none
      | ':' :: ':' :: tail =>
        if gap.isSome then none
        else if tail = [] then some (ip, some ip.length)
        else groups n ip (some ip.length) tail
      | ':' :: tail => groups n ip gap tail
      | _ => none

/-- `parseIPv6`, without a zone. -/
def parseIPv6 (s : Str) : Option (List UInt8) :=
  let start : Option (List UInt8 × Option ℕ) :=
    match s with
    | ':' :: ':' :: [] => some ([], some 0)
    | ':' :: ':' :: tail => groups 8 [] (some 0) tail
    | _ => groups 8 [] none s
  match start with
  | none => none
  | some (ip, none) => if ip.length = 16 then some ip else none
  | some (ip, some gap) =>
    if ip.length < 16 then some (ip.take gap ++ List.replicate (16 - ip.length) 0 ++ ip.drop gap) else none

/-- `netip.ParseAddr` of a text without a zone: the first dot or colon decides. -/
def parseAddr (s : Str) : Option (List UInt8) :=
  match s.find? (fun c => c == '.' || c == ':' || c == '%') with
  | some '.' => parseIPv4 s
  | some ':' => if '%' ∈ s then none else parseIPv6 s
  | _ => none

/-- `ip.To4()` of a parsed address: the four bytes, also of an IPv4-mapped IPv6 address. -/
def to4 (ip : List UInt8) : Option (List UInt8) :=
  if ip.length = 4 then some ip
  else if ip.length = 16 ∧ ip.take 12 = List.replicate 10 0 ++ [255, 255] then some (ip.drop 12)
  else none

/-- `net.ParseIP`, an IPv4 address as its four bytes. -/
def parseIP (s : Str) : Option (List UInt8) := (parseAddr s).map (fun ip => (to4 ip).getD ip)

/-! ### Printing -/

/-- The eight groups of a sixteen-byte address. -/
def words : List UInt8 → List ℕ
  | a :: b :: rest => (a.toNat * 256 + b.toNat) :: words rest
  | _ => []

/-- The length of the run of zeros a list starts with. -/
def zeros (ws : List ℕ) : ℕ := (ws.takeWhile (· == 0)).length

/-- The first of the longest runs of at least two zero groups: its place and its length. -/
def longestRun (ws : List ℕ) : Option (ℕ × ℕ) :=
  (List.range ws.length).foldl (fun best i =>
    let n := zeros (ws.drop i)
    if 2 ≤ n ∧ (best.map Prod.snd).getD 0 < n then some (i, n) else best) none

def joinColon (ws : List ℕ) : Str := List.intercalate [':'] (ws.map (fun w => Nat.toDigits 16 w))

/-- `ip.String()`. -/
def ipString (ip : List UInt8) : Str :=
  match to4 ip with
  | some v4 => List.intercalate ['.'] (v4.map (fun b => decimal b.toNat))
  | none =>
    let ws := words ip
    match longestRun ws with
    | none => joinColon ws
    | some (i, n) => joinColon (ws.take i) ++ ':' :: ':' :: joinColon (ws.drop (i + n))

example : ipString [32, 1, 13, 184, 0, 0, 0, 0, 0, 1, 0, 0, 0, 0, 0, 1] = "2001:db8::1:0:0:1".toList := by decide

example : parseAddr "192.0.2.1".toList = some [192, 0, 2, 1] ∧ parseAddr "192.0.2.01".toList = none ∧
    parseAddr "2001:db8::1".toList = some [32, 1, 13, 184, 0, 0, 0, 0, 0, 0, 0, 0, 0, 0, 0, 1] ∧
    parseAddr "::ffff:192.0.2.1".toList = some [0, 0, 0, 0, 0, 0, 0, 0, 0, 0, 255, 255, 192, 0, 2, 1] := by
  decide

/-! ### What is printed is read back -/

theorem octet_decimal (b : UInt8) : octet (decimal b.toNat) = some b := by
  have h : ∀ n : Fin 256, octet (decimal n.val) = some (UInt8.ofNat n.val) := by decide +kernel
  simpa using h ⟨b.toNat, b.toNat_lt⟩

theorem mapM_octet (bs : List UInt8) : (bs.map (fun b => decimal b.toNat)).mapM octet = some bs := by
  induction bs with
  | nil => rfl
  | cons b bs ih => simp [octet_decimal, ih]

theorem parseIPv4_dotted {ip : List UInt8} (h : ip.length = 4) :
    parseIPv4 (List.intercalate ['.'] (ip.map (fun b => decimal b.toNat))) = some ip := by
  set parts := ip.map (fun b => decimal b.toNat) with hparts
  have hdot : ∀ l ∈ parts, '.' ∉ l := by
    intro l hl
    obtain ⟨b, -, rfl⟩ := List.mem_map.1 hl
    exact notMem_decimal (by decide) _
  have hne : parts ≠ [] := by
    rintro h0
    rw [hparts, List.map_eq_nil_iff] at h0
    subst h0
    cases h
  have hsplit : splitDots (List.intercalate ['.'] parts) = parts := List.splitOn_intercalate '.' hdot hne
  simp only [parseIPv4, hsplit]
  rw [if_pos (by rw [hparts, List.length_map, h]), hparts, mapM_octet]

theorem parseAddr_dotted {ip : List UInt8} (h : ip.length = 4) :
    parseAddr (List.intercalate ['.'] (ip.map (fun b => decimal b.toNat))) = some ip := by
  -- the text before the first dot has digits only
  have hfirst : (List.intercalate ['.'] (ip.map (fun b => decimal b.toNat))).find?
      (fun c => c == '.' || c == ':' || c == '%') = some '.' := by
    match ip, h with
    | [a, b, c, d], _ =>
      have hnone : (decimal a.toNat).find? (fun c => c == '.' || c == ':' || c == '%') = none := by
        rw [List.find?_eq_none]
        intro c hc hbad
        have hdigit := Nat.isDigit_of_mem_toDigits (b := 10) (by omega) (by omega) hc
        simp only [Bool.or_eq_true, beq_iff_eq] at hbad
        rcases hbad with (rfl | rfl) | rfl <;> exact absurd hdigit (by decide)
      simp [List.intercalate, List.find?_append, hnone]
  unfold parseAddr
  rw [hfirst]
  exact parseIPv4_dotted h

/-- The sixteen-bit groups as bytes. -/
def bytes (ws : List ℕ) : List UInt8 := ws.flatMap (fun w => [UInt8.ofNat (w / 256), UInt8.ofNat (w % 256)])

theorem bytes_words : ∀ {ip : List UInt8}, ip.length % 2 = 0 → bytes (words ip) = ip
  | [], _ => rfl
  | [a], h => by simp at h
  | a :: b :: rest, h => by
    have hrest : bytes (words rest) = rest := bytes_words (by simp only [List.length_cons] at h; omega)
    have ha := a.toNat_lt
    have hb := b.toNat_lt
    have h1 : (a.toNat * 256 + b.toNat) / 256 = a.toNat := by omega
    have h2 : (a.toNat * 256 + b.toNat) % 256 = b.toNat := by omega
    simp only [words, bytes, List.flatMap_cons, h1, h2, UInt8.ofNat_toNat, List.cons_append, List.nil_append]
    rw [← bytes, hrest]

theorem words_lt : ∀ {ip : List UInt8}, ∀ w ∈ words ip, w < 65536
  | [], w, hw => by cases hw
  | [a], w, hw => by cases hw
  | a :: b :: rest, w, hw => by
    rcases List.mem_cons.1 hw with rfl | hw
    · have ha := a.toNat_lt
      have hb := b.toNat_lt
      omega
    · exact words_lt w hw

theorem length_words : ∀ (ip : List UInt8), (words ip).length = ip.length / 2
  | [] => rfl
  | [a] => by simp [words]
  | a :: b :: rest => by
    simp only [words, List.length_cons, length_words rest]
    omega

theorem length_bytes (ws : List ℕ) : (bytes ws).length = 2 * ws.length := by
  induction ws with
  | nil => rfl
  | cons w ws ih =>
    simp only [bytes, List.flatMap_cons, List.length_append, List.length_cons, List.length_nil]
    rw [← bytes, ih]
    omega

/-- The hexadecimal digits of a number: they are digits, and they give the number back. -/
theorem hex_digits (n : ℕ) : Nat.toDigits 16 n ≠ [] ∧ (∀ c ∈ Nat.toDigits 16 n, (hexDigit c).isSome = true) ∧
    hexValue (Nat.toDigits 16 n) = n ∧ ∀ m, n < 16 ^ (m + 1) → (Nat.toDigits 16 n).length ≤ m + 1 := by
  have hdigit : ∀ d < 16, hexDigit (Nat.digitChar d) = some d := by decide
  induction n using Nat.strong_induction_on with
  | _ n ih =>
    by_cases hn : n < 16
    · rw [Nat.toDigits_of_lt_base hn]
      simp [hexValue, hdigit n hn]
    · have hmod : n % 16 < 16 := Nat.mod_lt _ (by omega)
      obtain ⟨-, hall, hval, hlen⟩ := ih (n / 16) (by omega)
      rw [Nat.toDigits_of_base_le (by omega) (by omega)]
      refine ⟨by simp, ?_, ?_, ?_⟩
      · intro c hc
        rcases List.mem_append.1 hc with hc | hc
        · exact hall c hc
        · rw [List.mem_singleton.1 hc, hdigit _ hmod]
          rfl
      · rw [hexValue, List.foldl_append, ← hexValue, hval]
        simp only [List.foldl_cons, List.foldl_nil, hdigit _ hmod, Option.getD_some]
        omega
      · intro m hm
        cases m with
        | zero => omega
        | succ m =>
          have := hlen m (by rw [pow_succ] at hm; omega)
          simp only [List.length_append, List.length_singleton]
          omega

/-- A text that does not go on with a hexadecimal digit or a dot. -/
def Cut (rest : Str) : Prop := ∀ c, rest.head? = some c → hexDigit c = none ∧ c ≠ '.'

theorem hexPrefix_append {ds rest : Str} (hds : ∀ c ∈ ds, (hexDigit c).isSome = true) (hrest : Cut rest) :
    hexPrefix (ds ++ rest) = (ds, rest) := by
  unfold hexPrefix
  rw [List.span_eq_takeWhile_dropWhile, List.takeWhile_append_of_pos hds, List.dropWhile_append_of_pos hds]
  cases rest with
  | nil => simp
  | cons c cs =>
    have hc := (hrest c rfl).1
    simp [hc]

theorem cut_colon (rest : Str) : Cut (':' :: rest) := by
  rintro c hc
  cases hc
  decide

/-- A text of groups starts with a hexadecimal digit. -/
theorem head_joinColon {w : ℕ} {ws : List ℕ} {rest : Str} :
    ∃ c cs, joinColon (w :: ws) ++ rest = c :: cs ∧ (hexDigit c).isSome = true := by
  obtain ⟨hne, hall, -, -⟩ := hex_digits w
  cases hd : Nat.toDigits 16 w with
  | nil => exact absurd hd hne
  | cons c cs =>
    have hc := hall c (by rw [hd]; exact List.mem_cons_self)
    cases ws with
    | nil => exact ⟨c, cs ++ rest, by simp [joinColon, hd], hc⟩
    | cons w' ws => exact ⟨c, _, by simp [joinColon, List.intercalate, hd]; rfl, hc⟩

theorem joinColon_cons_cons (w w' : ℕ) (ws : List ℕ) :
    joinColon (w :: w' :: ws) = Nat.toDigits 16 w ++ ':' :: joinColon (w' :: ws) := by
  simp [joinColon, List.intercalate]

/-- How the loop goes on after a group, with the bytes so far. -/
def afterGroup (n : ℕ) (ip : List UInt8) (gap : Option ℕ) : Str → Option (List UInt8 × Option ℕ)
  | [] => some (ip, gap)
  | ':' :: [] => none
  | ':' :: ':' :: tail =>
    if gap.isSome then none
    else if tail = [] then some (ip, some ip.length)
    else groups n ip (some ip.length) tail
  | ':' :: tail => groups n ip gap tail
  | _ => none

section

variable {w : ℕ} (hw : w < 65536) (n : ℕ) (ip : List UInt8) (gap : Option ℕ)

include hw

/-- One group of the loop of `parseIPv6`. -/
theorem groups_word {rest : Str} (hrest : Cut rest) :
    groups (n + 1) ip gap (Nat.toDigits 16 w ++ rest) = afterGroup n (ip ++ bytes [w]) gap rest := by
  obtain ⟨hne, hall, hval, hlen⟩ := hex_digits w
  have hdot : rest.head? ≠ some '.' := fun h => (hrest '.' h).2 rfl
  have hshort := hlen 3 (by omega)
  have hok : ¬ (Nat.toDigits 16 w = [] ∨ (Nat.toDigits 16 w).length > 4) := by
    rintro (h | h)
    · exact hne h
    · omega
  rw [groups.eq_2, hexPrefix_append hall hrest]
  simp only [if_neg hok, if_neg hdot, hval]
  rfl

theorem groups_end : groups (n + 1) ip gap (Nat.toDigits 16 w) = some (ip ++ bytes [w], gap) := by
  have h := @groups_word _ hw n ip gap [] (by rintro c hc; cases hc)
  rwa [List.append_nil] at h

theorem groups_gap (tail : Str) : groups (n + 1) ip none (Nat.toDigits 16 w ++ ':' :: ':' :: tail) =
    if tail = [] then some (ip ++ bytes [w], some (ip ++ bytes [w]).length)
    else groups n (ip ++ bytes [w]) (some (ip ++ bytes [w]).length) tail :=
  groups_word hw n ip none (cut_colon _)

theorem groups_next (w' : ℕ) (ws : List ℕ) (rest : Str) :
    groups (n + 1) ip gap (Nat.toDigits 16 w ++ ':' :: (joinColon (w' :: ws) ++ rest)) =
      groups n (ip ++ bytes [w]) gap (joinColon (w' :: ws) ++ rest) := by
  rw [groups_word hw n ip gap (cut_colon _)]
  obtain ⟨c, cs, hcs, hc⟩ := @head_joinColon w' ws rest
  rw [hcs]
  have hcolon : c ≠ ':' := by
    rintro rfl
    cases hc
  simp [afterGroup, hcolon]

end

/-- Groups to the end of the text. -/
theorem groups_joinColon : ∀ (ws : List ℕ), ws ≠ [] → (∀ w ∈ ws, w < 65536) → ∀ n (ip : List UInt8) (gap : Option ℕ),
    ws.length ≤ n → groups n ip gap (joinColon ws) = some (ip ++ bytes ws, gap)
  | [], hne, _, _, _, _, _ => absurd rfl hne
  | [w], _, hlt, n + 1, ip, gap, _ => by
    have := groups_end (hlt w List.mem_cons_self) n ip gap
    simpa [joinColon] using this
  | w :: w' :: ws, _, hlt, n + 1, ip, gap, hn => by
    have ih := groups_joinColon (w' :: ws) (by simp) (fun x hx => hlt x (List.mem_cons_of_mem _ hx)) n (ip ++ bytes [w])
      gap (by simpa using hn)
    have hstep := groups_next (hlt w List.mem_cons_self) n ip gap w' ws []
    rw [List.append_nil] at hstep
    rw [joinColon_cons_cons, hstep, ih]
    simp [bytes]

/-- Groups up to the place of the `::`. -/
theorem groups_joinColon_gap : ∀ (ws : List ℕ), ws ≠ [] → (∀ w ∈ ws, w < 65536) → ∀ n (ip : List UInt8) (tail : Str),
    ws.length ≤ n → groups n ip none (joinColon ws ++ ':' :: ':' :: tail) =
      if tail = [] then some (ip ++ bytes ws, some (ip ++ bytes ws).length)
      else groups (n - ws.length) (ip ++ bytes ws) (some (ip ++ bytes ws).length) tail
  | [], hne, _, _, _, _, _ => absurd rfl hne
  | [w], _, hlt, n + 1, ip, tail, _ => by
    have := groups_gap (hlt w List.mem_cons_self) n ip tail
    simpa [joinColon] using this
  | w :: w' :: ws, _, hlt, n + 1, ip, tail, hn => by
    have ih := groups_joinColon_gap (w' :: ws) (by simp) (fun x hx => hlt x (List.mem_cons_of_mem _ hx)) n
      (ip ++ bytes [w]) tail (by simpa using hn)
    have hstep := groups_next (hlt w List.mem_cons_self) n ip none w' ws (':' :: ':' :: tail)
    rw [joinColon_cons_cons, List.append_assoc, List.cons_append, hstep, ih]
    simp [bytes]

/-- What `longestRun` finds is a run of at least two zeros. -/
theorem longestRun_spec {ws : List ℕ} {i n : ℕ} (h : longestRun ws = some (i, n)) :
    2 ≤ n ∧ ws = ws.take i ++ List.replicate n 0 ++ ws.drop (i + n) := by
  have hrun : n = zeros (ws.drop i) ∧ 2 ≤ n := by
    have hfold : ∀ (is : List ℕ) (best : Option (ℕ × ℕ)),
        (∀ r, best = some r → r.2 = zeros (ws.drop r.1) ∧ 2 ≤ r.2) → ∀ r, is.foldl (fun best i =>
          let n := zeros (ws.drop i)
          if 2 ≤ n ∧ (best.map Prod.snd).getD 0 < n then some (i, n) else best) best = some r →
        r.2 = zeros (ws.drop r.1) ∧ 2 ≤ r.2 := by
      intro is
      induction is with
      | nil => exact fun best hbest r hr => hbest r hr
      | cons i is ih =>
        intro best hbest r hr
        refine ih _ (fun r' hr' => ?_) r hr
        dsimp only at hr'
        split at hr'
        · rename_i hlong
          cases hr'
          exact ⟨rfl, hlong.1⟩
        · exact hbest r' hr'
    exact hfold _ none (by simp) (i, n) h
  obtain ⟨hn, h2⟩ := hrun
  refine ⟨h2, ?_⟩
  have hzeros : (ws.drop i).take n = List.replicate n 0 := by
    have htake : (ws.drop i).takeWhile (· == 0) = (ws.drop i).take n := by
      rw [hn]
      exact ((List.prefix_iff_eq_take).1 (List.takeWhile_prefix _))
    rw [List.eq_replicate_iff]
    refine ⟨by rw [← htake, hn]; rfl, fun w hw => ?_⟩
    rw [← htake] at hw
    simpa using List.mem_takeWhile_imp hw
  calc ws = ws.take i ++ ws.drop i := (List.take_append_drop _ _).symm
    _ = ws.take i ++ ((ws.drop i).take n ++ (ws.drop i).drop n) := by rw [List.take_append_drop n]
    _ = ws.take i ++ List.replicate n 0 ++ ws.drop (i + n) := by rw [hzeros, List.drop_drop, List.append_assoc]

theorem bytes_append (a b : List ℕ) : bytes (a ++ b) = bytes a ++ bytes b := by simp [bytes]

theorem bytes_zeros (n : ℕ) : bytes (List.replicate n 0) = List.replicate (2 * n) 0 := by
  induction n with
  | zero => rfl
  | succ n ih =>
    rw [List.replicate_succ, show 2 * (n + 1) = 2 * n + 1 + 1 by omega, List.replicate_succ, List.replicate_succ, ← ih]
    rfl

/-- The groups before and after a run of zeros are read back as the whole. -/
theorem fill_gap {a b : List ℕ} {n : ℕ} (hlen : a.length + n + b.length = 8) :
    (bytes a ++ bytes b).take (2 * a.length) ++ List.replicate (16 - (bytes a ++ bytes b).length) 0 ++
      (bytes a ++ bytes b).drop (2 * a.length) = bytes (a ++ List.replicate n 0 ++ b) := by
  have ha := length_bytes a
  have hb := length_bytes b
  rw [List.take_left' ha, List.drop_left' ha, bytes_append, bytes_append, bytes_zeros, List.length_append, ha, hb]
  congr 3
  omega

theorem joinColon_eq_nil {ws : List ℕ} (h : joinColon ws = []) : ws = [] := by
  cases ws with
  | nil => rfl
  | cons w ws =>
    obtain ⟨c, cs, hcs, -⟩ := @head_joinColon w ws []
    rw [List.append_nil, h] at hcs
    cases hcs

/-- The bytes `parseIPv6` makes of what its loop leaves. -/
def filled : List UInt8 × Option ℕ → Option (List UInt8)
  | (ip, none) => if ip.length = 16 then some ip else none
  | (ip, some gap) =>
    if ip.length < 16 then some (ip.take gap ++ List.replicate (16 - ip.length) 0 ++ ip.drop gap) else none

/-- A text that starts with a group is read from its start. -/
theorem parseIPv6_group (w : ℕ) (ws : List ℕ) (rest : Str) :
    parseIPv6 (joinColon (w :: ws) ++ rest) = (groups 8 [] none (joinColon (w :: ws) ++ rest)).bind filled := by
  obtain ⟨c, cs, hcs, hc⟩ := @head_joinColon w ws rest
  have hcolon : c ≠ ':' := by
    rintro rfl
    cases hc
  rw [hcs]
  unfold parseIPv6
  simp only [hcolon, List.cons.injEq, false_and, imp_self, implies_true]
  cases groups 8 [] none (c :: cs) with
  | none => rfl
  | some r =>
    obtain ⟨ip, _ | gap⟩ := r <;> rfl

/-- A text that starts with `::` has its gap there. -/
theorem parseIPv6_colons {s : Str} (hs : s ≠ []) : parseIPv6 (':' :: ':' :: s) = (groups 8 [] (some 0) s).bind filled := by
  obtain ⟨c, cs, rfl⟩ := List.exists_cons_of_ne_nil hs
  have hread : parseIPv6 (':' :: ':' :: c :: cs) =
      match groups 8 [] (some 0) (c :: cs) with
      | none => none
      | some (ip, none) => if ip.length = 16 then some ip else none
      | some (ip, some gap) =>
        if ip.length < 16 then some (ip.take gap ++ List.replicate (16 - ip.length) 0 ++ ip.drop gap) else none := rfl
  rw [hread]
  cases groups 8 [] (some 0) (c :: cs) with
  | none => rfl
  | some r =>
    obtain ⟨ip, _ | gap⟩ := r <;> rfl

theorem parseIPv6_gap (ws : List ℕ) :
    parseIPv6 (':' :: ':' :: joinColon ws) =
      (if ws = [] then some ([], some 0) else groups 8 [] (some 0) (joinColon ws)).bind filled := by
  split
  · rename_i h
    subst h
    decide
  · rename_i h
    exact parseIPv6_colons fun h0 => h (joinColon_eq_nil h0)

/-- Groups with a gap of `n` zero groups are read back. -/
theorem parseIPv6_run {a b : List ℕ} {n : ℕ} (h2 : 2 ≤ n) (hlen : a.length + n + b.length = 8)
    (ha : ∀ w ∈ a, w < 65536) (hb : ∀ w ∈ b, w < 65536) :
    parseIPv6 (joinColon a ++ ':' :: ':' :: joinColon b) = some (bytes (a ++ List.replicate n 0 ++ b)) := by
  have hfilled : filled (bytes a ++ bytes b, some (2 * a.length)) = some (bytes (a ++ List.replicate n 0 ++ b)) := by
    have hshort : (bytes a ++ bytes b).length < 16 := by
      rw [List.length_append, length_bytes, length_bytes]
      omega
    rw [filled, if_pos hshort, fill_gap hlen]
  cases a with
  | nil =>
    rw [show joinColon ([] : List ℕ) = [] from rfl, List.nil_append, parseIPv6_gap, ← hfilled]
    split
    · rename_i hb0
      rw [hb0]
      rfl
    · rename_i hb0
      rw [groups_joinColon b hb0 hb 8 [] (some 0) (by omega)]
      rfl
  | cons w ws =>
    rw [parseIPv6_group, groups_joinColon_gap (w :: ws) (by simp) ha 8 [] _ (by omega), ← hfilled]
    split
    · rename_i hb0
      rw [joinColon_eq_nil hb0, List.nil_append, length_bytes, show bytes [] = [] from rfl, List.append_nil]
      rfl
    · rename_i hb0
      have hbne : b ≠ [] := by
        rintro rfl
        exact hb0 rfl
      rw [groups_joinColon b hbne hb _ _ _ (by omega), List.nil_append, length_bytes]
      rfl

/-- The text of a sixteen-byte address that is not an IPv4 address. -/
theorem ipString_v6 {ip : List UInt8} (h : to4 ip = none) : ipString ip =
    match longestRun (words ip) with
    | none => joinColon (words ip)
    | some (i, n) => joinColon ((words ip).take i) ++ ':' :: ':' :: joinColon ((words ip).drop (i + n)) := by
  unfold ipString
  rw [h]

theorem parseIPv6_ipString {ip : List UInt8} (h16 : ip.length = 16) (h4 : to4 ip = none) :
    parseIPv6 (ipString ip) = some ip := by
  have h8 : (words ip).length = 8 := by rw [length_words, h16]
  have hbytes : bytes (words ip) = ip := bytes_words (by rw [h16])
  rw [ipString_v6 h4]
  cases hrun : longestRun (words ip) with
  | none =>
    dsimp only
    cases hws : words ip with
    | nil =>
      rw [hws] at h8
      cases h8
    | cons w ws =>
      have hparse := parseIPv6_group w ws []
      rw [List.append_nil, ← hws, groups_joinColon _ (by simp [hws]) words_lt 8 [] none (by omega), List.nil_append,
        hbytes] at hparse
      rw [← hws, hparse, Option.bind_some, filled, if_pos h16]
  | some r =>
    obtain ⟨i, n⟩ := r
    obtain ⟨h2, hws⟩ := longestRun_spec hrun
    have hlen : ((words ip).take i).length + n + ((words ip).drop (i + n)).length = 8 := by
      have hl := congrArg List.length hws
      rw [List.length_append, List.length_append, List.length_replicate, h8] at hl
      exact hl.symm
    dsimp only
    rw [parseIPv6_run h2 hlen (fun w hw => words_lt w (List.mem_of_mem_take hw))
      (fun w hw => words_lt w (List.mem_of_mem_drop hw)), ← hws, hbytes]

/-- The first digit of a group, of those that have one to four digits. -/
theorem head_toDigits {w d k : ℕ} (hd : 0 < d) (hlo : d * 16 ^ k ≤ w) (hhi : w < (d + 1) * 16 ^ k) (h16 : d < 16) :
    (Nat.toDigits 16 w).head? = some (Nat.digitChar d) := by
  induction k generalizing w with
  | zero =>
    obtain rfl : w = d := by omega
    rw [Nat.toDigits_of_lt_base h16]
    rfl
  | succ k ih =>
    rw [pow_succ] at hlo hhi
    have hpos : 0 < 16 ^ k := Nat.pow_pos (by decide)
    have hone : 16 ^ k ≤ d * 16 ^ k := Nat.le_mul_of_pos_left _ hd
    have hlo' : d * 16 ^ k * 16 ≤ w := by rwa [Nat.mul_assoc]
    have hhi' : w < (d + 1) * 16 ^ k * 16 := by rwa [Nat.mul_assoc]
    have hdiv := ih (w := w / 16) (by omega) (by omega)
    rw [Nat.toDigits_of_base_le (by decide) (by omega), List.head?_append, hdiv]
    rfl

/-- The first digit of a group. -/
theorem head_word {w : ℕ} (hw : w < 65536) : ∃ d < 16, (Nat.toDigits 16 w).head? = some (Nat.digitChar d) ∧
    (w = 0 ∧ d = 0 ∨ 0 < d ∧ ∃ k < 4, d * 16 ^ k ≤ w ∧ w < (d + 1) * 16 ^ k) := by
  have hone : ∀ d k, 0 < d → d < 16 → k < 4 → d * 16 ^ k ≤ w → w < (d + 1) * 16 ^ k → ∃ d < 16,
      (Nat.toDigits 16 w).head? = some (Nat.digitChar d) ∧
      (w = 0 ∧ d = 0 ∨ 0 < d ∧ ∃ k < 4, d * 16 ^ k ≤ w ∧ w < (d + 1) * 16 ^ k) :=
    fun d k hd h16 hk hlo hhi => ⟨d, h16, head_toDigits hd hlo hhi h16, Or.inr ⟨hd, k, hk, hlo, hhi⟩⟩
  rcases Nat.eq_zero_or_pos w with rfl | hpos
  · exact ⟨0, by decide, by decide, Or.inl ⟨rfl, rfl⟩⟩
  by_cases h1 : w < 16
  · exact hone w 0 hpos h1 (by decide) (by omega) (by omega)
  by_cases h2 : w < 256
  · exact hone (w / 16) 1 (by omega) (by omega) (by decide) (by omega) (by omega)
  by_cases h3 : w < 4096
  · exact hone (w / 256) 2 (by omega) (by omega) (by decide) (by omega) (by omega)
  · exact hone (w / 4096) 3 (by omega) (by omega) (by decide) (by omega) (by omega)

/-- The text of an IPv6 address begins with its first group, or with a colon when that is zero. -/
theorem head_ipString {ip : List UInt8} (h4 : to4 ip = none) {w : ℕ} {ws : List ℕ} (hws : words ip = w :: ws) :
    (ipString ip).head? = (Nat.toDigits 16 w).head? ∨ w = 0 ∧ (ipString ip).head? = some ':' := by
  have hjoin : ∀ l : List ℕ, (joinColon (w :: l)).head? = (Nat.toDigits 16 w).head? := by
    intro l
    have hne : Nat.toDigits 16 w ≠ [] := (hex_digits w).1
    cases l with
    | nil => simp [joinColon]
    | cons w' l => rw [joinColon_cons_cons, List.head?_append_of_ne_nil _ hne]
  rw [ipString_v6 h4, hws]
  cases hrun : longestRun (w :: ws) with
  | none => exact Or.inl (hjoin ws)
  | some r =>
    obtain ⟨i, n⟩ := r
    obtain ⟨h2, hsplit⟩ := longestRun_spec hrun
    dsimp only
    cases i with
    | zero =>
      -- the run of zeros comes first
      right
      obtain ⟨m, rfl⟩ := Nat.exists_eq_add_of_le' (show 1 ≤ n by omega)
      rw [List.take_zero, List.nil_append, List.replicate_succ, List.cons_append, List.cons.injEq] at hsplit
      exact ⟨hsplit.1, rfl⟩
    | succ i =>
      left
      have hne : joinColon (w :: ws.take i) ≠ [] := fun hnil => List.cons_ne_nil _ _ (joinColon_eq_nil hnil)
      rw [List.take_succ_cons, List.head?_append_of_ne_nil _ hne]
      exact hjoin _

/-- The characters of a printed IPv6 address. -/
theorem mem_joinColon {ws : List ℕ} {c : Char} (h : c ∈ joinColon ws) : (hexDigit c).isSome = true ∨ c = ':' := by
  induction ws with
  | nil => cases h
  | cons w ws ih =>
    have hw : ∀ c ∈ Nat.toDigits 16 w, (hexDigit c).isSome = true := (hex_digits w).2.1
    cases ws with
    | nil => exact Or.inl (hw c (by simpa [joinColon] using h))
    | cons w' ws =>
      rw [joinColon_cons_cons, List.mem_append, List.mem_cons] at h
      rcases h with h | h | h
      · exact Or.inl (hw c h)
      · exact Or.inr h
      · exact ih h

theorem mem_ipString_v6 {ip : List UInt8} {c : Char} (h4 : to4 ip = none) (hc : c ∈ ipString ip) :
    (hexDigit c).isSome = true ∨ c = ':' := by
  rw [ipString_v6 h4] at hc
  split at hc
  · exact mem_joinColon hc
  · rw [List.mem_append, List.mem_cons, List.mem_cons] at hc
    rcases hc with hc | hc | hc | hc
    · exact mem_joinColon hc
    · exact Or.inr hc
    · exact Or.inr hc
    · exact mem_joinColon hc

theorem parseAddr_ipString_v6 {ip : List UInt8} (h16 : ip.length = 16) (h4 : to4 ip = none) :
    parseAddr (ipString ip) = some ip := by
  have hchars : ∀ c ∈ ipString ip, (hexDigit c).isSome = true ∨ c = ':' := fun c hc => mem_ipString_v6 h4 hc
  have hcolon : ':' ∈ ipString ip := by
    rw [ipString_v6 h4]
    split
    · have h8 : (words ip).length = 8 := by rw [length_words, h16]
      match words ip, h8 with
      | w :: w' :: ws, _ => simp [joinColon_cons_cons]
    · simp
  have hfind : (ipString ip).find? (fun c => c == '.' || c == ':' || c == '%') = some ':' := by
    have hsome : ((ipString ip).find? (fun c => c == '.' || c == ':' || c == '%')).isSome = true :=
      List.find?_isSome.2 ⟨':', hcolon, by decide⟩
    obtain ⟨c, hc⟩ := Option.isSome_iff_exists.1 hsome
    rcases hchars c (List.mem_of_find?_eq_some hc) with hhex | rfl
    · have hp := List.find?_some hc
      simp only [Bool.or_eq_true, beq_iff_eq] at hp
      rcases hp with (rfl | rfl) | rfl
      · cases hhex
      · exact hc
      · cases hhex
    · exact hc
  have hpercent : '%' ∉ ipString ip := by
    intro h
    rcases hchars '%' h with h | h
    · cases h
    · cases h
  unfold parseAddr
  rw [hfind]
  simp only [hpercent, if_false]
  exact parseIPv6_ipString h16 h4

/-! ### The addresses that are read -/

theorem length_mapM_some {α β : Type} {f : α → Option β} : ∀ {l : List α} {l' : List β}, l.mapM f = some l' →
    l'.length = l.length
  | [], l', h => by
    cases h
    rfl
  | a :: l, l', h => by
    rw [List.mapM_cons] at h
    obtain ⟨b, -, h⟩ := Option.bind_eq_some_iff.1 h
    obtain ⟨bs, hbs, h⟩ := Option.bind_eq_some_iff.1 h
    cases h
    simp [length_mapM_some hbs]

theorem length_parseIPv6 {s : Str} {ip : List UInt8} (h : parseIPv6 s = some ip) : ip.length = 16 := by
  unfold parseIPv6 at h
  dsimp only at h
  split at h
  · cases h
  · split at h
    · rename_i h16
      cases h
      exact h16
    · cases h
  · split at h
    · rename_i ip' gap _ hlt
      cases h
      simp only [List.length_append, List.length_take, List.length_drop, List.length_replicate]
      omega
    · cases h

theorem length_parseAddr {s : Str} {ip : List UInt8} (h : parseAddr s = some ip) : ip.length = 4 ∨ ip.length = 16 := by
  unfold parseAddr at h
  split at h
  · left
    unfold parseIPv4 at h
    split at h
    · rename_i h4
      rw [length_mapM_some h, h4]
    · cases h
  · right
    split at h
    · cases h
    · exact length_parseIPv6 h
  · cases h

/-- **An address that was read, printed and read again is the same.** -/
theorem parseIP_ipString {s : Str} {ip : List UInt8} (h : parseIP s = some ip) : parseIP (ipString ip) = some ip := by
  obtain ⟨raw, hraw, rfl⟩ := Option.map_eq_some_iff.1 h
  have hlen := length_parseAddr hraw
  cases h4 : to4 raw with
  | some v4 =>
    have hv4 : v4.length = 4 := by
      unfold to4 at h4
      split at h4
      · rename_i hl
        cases h4
        exact hl
      · split at h4
        · rename_i hm
          cases h4
          simp [hm.1]
        · cases h4
    have hself : to4 v4 = some v4 := by simp [to4, hv4]
    rw [Option.getD_some, parseIP, ipString, hself]
    dsimp only
    rw [parseAddr_dotted hv4, Option.map_some, hself, Option.getD_some]
  | none =>
    have h16 : raw.length = 16 := by
      rcases hlen with hl | hl
      · rw [to4, if_pos hl] at h4
        cases h4
      · exact hl
    rw [Option.getD_none, parseIP, parseAddr_ipString_v6 h16 h4, Option.map_some, h4, Option.getD_none]

/-! ### Addresses as they are -/

def dotted (ip : List UInt8) : Str := List.intercalate ['.'] (ip.map (fun b => decimal b.toNat))

/-- `netip.Addr.String`, of an address without a zone: an IPv4-mapped address stays one. -/
def addrString (ip : List UInt8) : Str :=
  if ip.length = 4 then dotted ip
  else
    match to4 ip with
    | some v4 => "::ffff:".toList ++ dotted v4
    | none => ipString ip

/-- The text of an IPv4 address starts with digits before a dot, which could start a group of an IPv6 address. -/
theorem hexPrefix_dotted {ip : List UInt8} (h : ip.length = 4) :
    ∃ digits rest, hexPrefix (dotted ip) = (digits, '.' :: rest) ∧ digits ≠ [] ∧ digits.length ≤ 4 := by
  match ip, h with
  | [a, b, c, d], _ =>
    have hsmall : ∀ n : Fin 256, decimal n.val ≠ [] ∧ (decimal n.val).length ≤ 4 ∧
        (decimal n.val).all (fun c => (hexDigit c).isSome) = true := by
      decide +kernel
    obtain ⟨hne, hlen, hhex⟩ := hsmall ⟨a.toNat, a.toNat_lt⟩
    refine ⟨decimal a.toNat, decimal b.toNat ++ '.' :: (decimal c.toNat ++ '.' :: decimal d.toNat), ?_, hne, hlen⟩
    have htext : dotted [a, b, c, d] =
        decimal a.toNat ++ '.' :: (decimal b.toNat ++ '.' :: (decimal c.toNat ++ '.' :: decimal d.toNat)) := by
      simp [dotted, List.intercalate]
    have hall : ∀ c ∈ decimal a.toNat, (hexDigit c).isSome = true := List.all_eq_true.1 hhex
    rw [htext, hexPrefix, List.span_eq_takeWhile_dropWhile, List.takeWhile_append_of_pos hall,
      List.dropWhile_append_of_pos hall]
    simp [show hexDigit '.' = none by decide]

/-- The characters of a dotted address. -/
theorem mem_dotted {ip : List UInt8} {c : Char} (h : c ∈ dotted ip) : c.isDigit = true ∨ c = '.' := by
  rw [dotted] at h
  induction ip with
  | nil => cases h
  | cons b bs ih =>
    have hdigit : ∀ c ∈ decimal b.toNat, c.isDigit = true := fun c hc =>
      Nat.isDigit_of_mem_toDigits (b := 10) (by omega) (by omega) hc
    cases bs with
    | nil => exact Or.inl (hdigit c (by simpa using h))
    | cons b' bs =>
      rw [List.map_cons, List.map_cons, List.intercalate_cons_cons, List.mem_append, List.mem_append,
        List.mem_singleton] at h
      rcases h with (h | h) | h
      · exact Or.inl (hdigit c h)
      · exact Or.inr h
      · exact ih h

theorem notMem_dotted {ip : List UInt8} {c : Char} (hdigit : c.isDigit = false) (hdot : c ≠ '.') : c ∉ dotted ip := by
  intro h
  rcases mem_dotted h with h | h
  · rw [hdigit] at h
    cases h
  · exact hdot h

/-- The group in front of the dotted part. -/
theorem groups_mapped {v4 : List UInt8} (h : v4.length = 4) :
    groups 8 [] (some 0) ("ffff:".toList ++ dotted v4) = some ([255, 255] ++ v4, some 0) := by
  obtain ⟨digits, rest, hprefix, hne, hlen⟩ := hexPrefix_dotted h
  have hlast : groups 7 [255, 255] (some 0) (dotted v4) = some ([255, 255] ++ v4, some 0) := by
    have hshort : ¬ (digits = [] ∨ digits.length > 4) := by
      push Not
      exact ⟨hne, hlen⟩
    rw [groups, hprefix]
    dsimp only
    rw [if_neg hshort, show parseIPv4 (dotted v4) = some v4 from parseIPv4_dotted h]
    rfl
  have hgroup := groups_word (w := 65535) (by omega) 7 [] (some 0) (cut_colon (dotted v4))
  have htext : Nat.toDigits 16 65535 ++ ':' :: dotted v4 = "ffff:".toList ++ dotted v4 := by
    simp [Nat.toDigits, Nat.toDigitsCore, Nat.digitChar]
  rw [← htext, hgroup]
  cases hdotted : dotted v4 with
  | nil =>
    rw [hdotted] at hprefix
    cases hprefix
  | cons c cs =>
    have hcolon : ':' ∉ dotted v4 := notMem_dotted (by decide) (by decide)
    have hc : c ≠ ':' := by
      rintro rfl
      exact hcolon (hdotted ▸ List.mem_cons_self)
    rw [hdotted] at hlast
    have hbytes : [] ++ bytes [65535] = [255, 255] := by decide
    rw [hbytes, afterGroup]
    · exact hlast
    · intro hnil
      cases hnil
    · intro tail htail
      cases htail
      exact hc rfl

/-- The text of an IPv4-mapped address. -/
theorem parseAddr_mapped {v4 : List UInt8} (h : v4.length = 4) :
    parseAddr ("::ffff:".toList ++ dotted v4) = some (List.replicate 10 0 ++ [255, 255] ++ v4) := by
  have hpercent : '%' ∉ "::ffff:".toList ++ dotted v4 := by
    rw [List.mem_append, not_or]
    exact ⟨by decide, notMem_dotted (by decide) (by decide)⟩
  have hsix : parseIPv6 (':' :: ':' :: ("ffff:".toList ++ dotted v4)) =
      some (List.replicate 10 0 ++ [255, 255] ++ v4) := by
    rw [parseIPv6_colons (by simp), groups_mapped h, Option.bind_some, filled]
    simp [h]
  have hread : parseAddr ("::ffff:".toList ++ dotted v4) =
      if '%' ∈ "::ffff:".toList ++ dotted v4 then none else parseIPv6 (':' :: ':' :: ("ffff:".toList ++ dotted v4)) := rfl
  rw [hread, if_neg hpercent, hsix]

/-- **An address that is printed as it is and read again is the same.** -/
theorem parseAddr_addrString_of_length {ip : List UInt8} (h : ip.length = 4 ∨ ip.length = 16) :
    parseAddr (addrString ip) = some ip := by
  rw [addrString]
  split
  · rename_i h4
    exact parseAddr_dotted h4
  · rename_i h4
    have h16 := h.resolve_left h4
    cases hto : to4 ip with
    | none => exact parseAddr_ipString_v6 h16 hto
    | some v4 =>
      rw [to4, if_neg h4] at hto
      split at hto
      · rename_i hmapped
        cases hto
        have hlen : (ip.drop 12).length = 4 := by
          rw [List.length_drop, h16]
        have hsplit := List.take_append_drop 12 ip
        rw [hmapped.2] at hsplit
        dsimp only
        rw [parseAddr_mapped hlen, hsplit]
      · cases hto

theorem parseAddr_addrString {s : Str} {ip : List UInt8} (h : parseAddr s = some ip) :
    parseAddr (addrString ip) = some ip := parseAddr_addrString_of_length (length_parseAddr h)

/-- The characters of a printed address. -/
theorem mem_addrString {ip : List UInt8} {c : Char} (h : c ∈ addrString ip) :
    (hexDigit c).isSome = true ∨ c = ':' ∨ c = '.' := by
  have hdotted : ∀ {ip : List UInt8}, c ∈ dotted ip → (hexDigit c).isSome = true ∨ c = ':' ∨ c = '.' := by
    intro ip hc
    rcases mem_dotted hc with hdigit | hdot
    · exact Or.inl (by simp [hexDigit, hdigit])
    · exact Or.inr (Or.inr hdot)
  rw [addrString] at h
  split at h
  · exact hdotted h
  · split at h
    · rcases List.mem_append.1 h with h | h
      · have hall : "::ffff:".toList.all (fun c => (hexDigit c).isSome || c == ':') = true := by decide +kernel
        have hc := List.all_eq_true.1 hall c h
        simp only [Bool.or_eq_true, beq_iff_eq] at hc
        exact hc.imp_right Or.inl
      · exact hdotted h
    · rename_i h4
      exact (mem_ipString_v6 h4 h).imp_right Or.inl

example : addrString [0, 0, 0, 0, 0, 0, 0, 0, 0, 0, 255, 255, 192, 0, 2, 1] = "::ffff:192.0.2.1".toList := by decide

/-! ### One text for each IPv4 address -/

theorem exists_digitChar {c : Char} (h : c.isDigit = true) : ∃ i : Fin 10, c = Nat.digitChar i.val := by
  simp only [Char.isDigit, Bool.and_eq_true, decide_eq_true_eq, UInt32.le_iff_toNat_le, ge_iff_le] at h
  have hlo : 48 ≤ c.toNat := h.1
  have hhi : c.toNat ≤ 57 := h.2
  refine ⟨⟨c.toNat - 48, by omega⟩, Char.toNat_inj.1 ?_⟩
  rw [Nat.toNat_digitChar_of_lt_ten (by omega)]
  dsimp only
  omega

theorem decimal_of_octet {s : Str} {b : UInt8} (h : octet s = some b) : s = decimal b.toNat := by
  have h1 : ∀ i : Fin 10, (octet [Nat.digitChar i.val]).all (fun b => decimal b.toNat == [Nat.digitChar i.val]) = true := by
    decide +kernel
  have h2 : ∀ i j : Fin 10, (octet [Nat.digitChar i.val, Nat.digitChar j.val]).all (fun b =>
      decimal b.toNat == [Nat.digitChar i.val, Nat.digitChar j.val]) = true := by
    decide +kernel
  have h3 : ∀ i j k : Fin 10, (octet [Nat.digitChar i.val, Nat.digitChar j.val, Nat.digitChar k.val]).all (fun b =>
      decimal b.toNat == [Nat.digitChar i.val, Nat.digitChar j.val, Nat.digitChar k.val]) = true := by
    decide +kernel
  have hok := h
  rw [octet] at hok
  split at hok
  · next hs =>
    obtain ⟨hne, hdigits, -, hlen, -⟩ := hs
    match s, hne, hdigits, hlen, h with
    | [a], _, hdigits, _, h =>
      obtain ⟨i, rfl⟩ := exists_digitChar (by simpa using hdigits)
      have hread := h1 i
      rw [h, Option.all_some, beq_iff_eq] at hread
      exact hread.symm
    | [a, b'], _, hdigits, _, h =>
      simp only [List.all_cons, List.all_nil, Bool.and_true, Bool.and_eq_true] at hdigits
      obtain ⟨i, rfl⟩ := exists_digitChar hdigits.1
      obtain ⟨j, rfl⟩ := exists_digitChar hdigits.2
      have hread := h2 i j
      rw [h, Option.all_some, beq_iff_eq] at hread
      exact hread.symm
    | [a, b', c], _, hdigits, _, h =>
      simp only [List.all_cons, List.all_nil, Bool.and_true, Bool.and_eq_true] at hdigits
      obtain ⟨i, rfl⟩ := exists_digitChar hdigits.1
      obtain ⟨j, rfl⟩ := exists_digitChar hdigits.2.1
      obtain ⟨k, rfl⟩ := exists_digitChar hdigits.2.2
      have hread := h3 i j k
      rw [h, Option.all_some, beq_iff_eq] at hread
      exact hread.symm
    | _ :: _ :: _ :: _ :: _, _, _, hlen, _ =>
      simp only [List.length_cons] at hlen
      omega
  · cases hok

theorem map_decimal_of_mapM : ∀ {parts : List Str} {ip : List UInt8}, parts.mapM octet = some ip →
    parts = ip.map (fun b => decimal b.toNat)
  | [], ip, h => by
    cases h
    rfl
  | s :: parts, ip, h => by
    rw [List.mapM_cons] at h
    obtain ⟨b, hb, h⟩ := Option.bind_eq_some_iff.1 h
    obtain ⟨bs, hbs, h⟩ := Option.bind_eq_some_iff.1 h
    cases h
    rw [List.map_cons, ← map_decimal_of_mapM hbs, ← decimal_of_octet hb]

/-- **An IPv4 address has one text.** -/
theorem dotted_of_parseAddr {s : Str} {ip : List UInt8} (h : parseAddr s = some ip) (h4 : ip.length = 4) : s = dotted ip := by
  have hread : parseIPv4 s = some ip := by
    unfold parseAddr at h
    split at h
    · exact h
    · exfalso
      split at h
      · cases h
      have h16 := length_parseIPv6 h
      omega
    · cases h
  rw [parseIPv4] at hread
  split at hread
  · rw [dotted, ← map_decimal_of_mapM hread, splitDots, List.intercalate_splitOn]
  · cases hread
end Velora.Lib.Ip
