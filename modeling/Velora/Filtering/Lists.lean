import Velora.Filtering.Service
import Velora.Lib.Utf8

/-!
# Lists of any bytes

`ParseHosts` of `internal/filtering/parser.go` on bytes as they come from the web: lines are cut at the newlines, their
lengths are those of the bytes, and a byte that begins no character is read as the replacement character. On the bytes of a
text it is `parseHosts` (`parseHostsBytes_utf8`). An accepted list is described by `HostsList`: it holds every domain token
once, in the order of the text, and the matcher of its rules blocks what is at or below its domains.
-/

namespace Velora.Filtering

open Velora.Lib Velora.Lib.Text Velora.Lib.Ip Velora.Lib.Loops Velora.Lib.Utf8
open Velora.Zones (byteLen)

/-! ### Reading bytes -/

/-- `dropCR` of `bufio`. -/
def dropCR (raw : List UInt8) : List UInt8 := if raw.getLast? = some 13 then raw.dropLast else raw

/-- `scanner.Text()`. -/
def lineText (raw : List UInt8) : Str := decode (dropCR raw)

/-- The fields of a line without its comment. -/
def lineFields (text : Str) : List Str :=
  let text := text.takeWhile (· ≠ '#')
  fields ((cutPrefix ['\ufeff'] text).getD text)

/-- One line that has been read. -/
def parseText (line : ℕ) (out : List Str) (text : Str) : Except Err (List Str) :=
  match lineFields text with
  | [] => .ok out
  | first :: rest =>
    if (parseIP first).isSome then
      if rest = [] then .error (.invalid ("missing hosts alias on line " ++ toString line))
      else rest.foldlM (parseField line) out
    else if rest ≠ [] then .error (.invalid ("invalid domain line " ++ toString line))
    else [first].foldlM (parseField line) out

/-- One turn of the scanner; a line that does not fit its buffer is not read. -/
def parseRaw (line : ℕ) (out : List Str) (raw : List UInt8) : Except Err (List Str) :=
  if raw.length ≥ maxLineBytes then .error (.invalid "oversized or unreadable line") else parseText line out (lineText raw)

/-- `ParseHosts`. The empty line after a last newline, which the scanner does not return, has no fields. -/
def parseHostsBytes (data : List UInt8) : Except Err (List Str) :=
  if data.length > maxListBytes then .error (.invalid "source exceeds 8 MiB")
  else do
    let out ← ((data.splitOn 10).zipIdx 1).foldlM (fun out (raw, line) => parseRaw line out raw) []
    if out = [] then .error (.invalid "list has no valid domains") else .ok out

/-! ### What a list says -/

/-- The domain tokens of a line: what follows the address, or the line. -/
def lineTokens (text : Str) : List Str :=
  match lineFields text with
  | [] => []
  | first :: rest => if (parseIP first).isSome then rest else first :: rest

/-- The domain tokens of a list. -/
def tokens (data : List UInt8) : List Str := (data.splitOn 10).flatMap (fun raw => lineTokens (lineText raw))

/-- The domain of a token, with the mark of a wildcard; the names of the local host are left out. -/
def tokenDomain (token : Str) : Option Str :=
  (name (trimStar token)).bind (fun d =>
    if d ∈ localNames then none else some (if "*.".toList.isPrefixOf token then "*.".toList ++ d else d))

/-- An accepted list. -/
structure HostsList (data : List UInt8) (out : List Str) : Prop where
  ne_nil : out ≠ []
  nodup : out.Nodup
  length_le : out.length ≤ maxDomains
  valid : ∀ t ∈ tokens data, ∃ d, name (trimStar t) = some d ∧ (d ∈ localNames ∨ tokenDomain t ∈ out.map some)
  order : out = ((tokens data).filterMap tokenDomain).eraseDups
  matcher : ∃ m, new (listRules out) = some m ∧
    ∀ v, m.blocked v = true ↔ ∃ n, name v = some n ∧ ∃ d ∈ out, Below n (trimStar d)

/-! ### The loops -/

/-- A domain that is kept unless it is there. -/
def addNew (out : List Str) (d : Str) : List Str := if d ∈ out then out else out ++ [d]

theorem foldl_addNew (l : List Str) : l.foldl addNew [] = l.eraseDups := by
  induction l using List.reverseRecOn with
  | nil => rfl
  | append_singleton l d ih =>
    rw [List.foldl_append, List.foldl_cons, List.foldl_nil, ih, List.eraseDups_append, addNew]
    by_cases hd : d ∈ l
    · rw [if_pos (List.mem_eraseDups.2 hd)]
      simp [List.removeAll, hd]
    · rw [if_neg (fun h => hd (List.mem_eraseDups.1 h))]
      simp [List.removeAll, hd, List.eraseDups_cons]

theorem nodup_foldl_addNew (l : List Str) {out : List Str} (h : out.Nodup) : (l.foldl addNew out).Nodup := by
  induction l generalizing out with
  | nil => exact h
  | cons d l ih =>
    refine ih ?_
    unfold addNew
    split
    · exact h
    · rename_i hd
      exact List.nodup_append_comm.1 (List.nodup_cons.2 ⟨hd, h⟩)

/-- What some tokens make of a list. -/
structure Reads (ts : List Str) (out out' : List Str) : Prop where
  valid : ∀ t ∈ ts, ∃ d, name (trimStar t) = some d
  eq : out' = (ts.filterMap tokenDomain).foldl addNew out
  length_le : out.length ≤ maxDomains → out'.length ≤ maxDomains

theorem Reads.nil (out : List Str) : Reads [] out out := ⟨by simp, rfl, id⟩

theorem Reads.append {ts us : List Str} {out out' out'' : List Str} (h : Reads ts out out') (h' : Reads us out' out'') :
    Reads (ts ++ us) out out'' where
  valid t ht := by
    rcases List.mem_append.1 ht with ht | ht
    · exact h.valid t ht
    · exact h'.valid t ht
  eq := by rw [h'.eq, h.eq, List.filterMap_append, List.foldl_append]
  length_le hle := h'.length_le (h.length_le hle)

/-- **One field.** -/
theorem parseField_reads {line : ℕ} {out out' : List Str} {t : Str} (h : parseField line out t = .ok out') :
    Reads [t] out out' := by
  unfold parseField at h
  split at h
  · cases h
  rename_i d hd
  have hvalid : ∀ x ∈ [t], ∃ d, name (trimStar x) = some d := fun x hx => ⟨d, by rw [List.mem_singleton.1 hx, hd]⟩
  split at h
  · cases h
  have htoken : tokenDomain t = if d ∈ localNames then none else
      some (if "*.".toList.isPrefixOf t then "*.".toList ++ d else d) := by
    rw [tokenDomain, hd, Option.bind_some]
  split at h
  · rename_i hlocal
    cases h
    rw [if_pos hlocal] at htoken
    exact ⟨hvalid, by simp [htoken], id⟩
  · rename_i hlocal
    rw [if_neg hlocal] at htoken
    dsimp only at h
    generalize (if "*.".toList.isPrefixOf t then "*.".toList ++ d else d) = x at h htoken
    have hone : ([t].filterMap tokenDomain).foldl addNew out = addNew out x := by simp [htoken]
    split at h
    · rename_i hmem
      cases h
      exact ⟨hvalid, by rw [hone, addNew, if_pos hmem], id⟩
    · rename_i hmem
      split at h
      · cases h
      · rename_i hlen
        cases h
        exact ⟨hvalid, by rw [hone, addNew, if_neg hmem], fun _ => by simpa using hlen⟩

theorem foldlM_reads {α : Type} {f : List Str → α → Except Err (List Str)} (ts : α → List Str)
    (hf : ∀ out a out', f out a = .ok out' → Reads (ts a) out out') :
    ∀ {l : List α} {out out' : List Str}, l.foldlM f out = .ok out' → Reads (l.flatMap ts) out out'
  | [], out, out', h => by
    cases h
    exact Reads.nil out
  | a :: l, out, out', h => by
    rw [List.foldlM_cons, bind_eq_ok] at h
    obtain ⟨mid, ha, hl⟩ := h
    exact (hf out a mid ha).append (foldlM_reads ts hf hl)

/-- **One line.** -/
theorem parseText_reads {line : ℕ} {out out' : List Str} {text : Str} (h : parseText line out text = .ok out') :
    Reads (lineTokens text) out out' := by
  have hfields : ∀ fs : List Str, fs.foldlM (parseField line) out = .ok out' → Reads fs out out' := by
    intro fs hfs
    have hreads := foldlM_reads (fun t => [t]) (fun _ _ _ => parseField_reads) hfs
    rwa [List.flatMap_singleton'] at hreads
  unfold parseText at h
  unfold lineTokens
  cases hl : lineFields text with
  | nil =>
    rw [hl] at h
    cases h
    exact Reads.nil out
  | cons first rest =>
    rw [hl] at h
    dsimp only at h ⊢
    split at h
    · rename_i hip
      rw [if_pos hip]
      split at h
      · cases h
      · exact hfields rest h
    · rename_i hip
      rw [if_neg hip]
      split at h
      · cases h
      · rename_i hrest
        rw [not_not.1 hrest]
        exact hfields [first] h

theorem parseRaw_reads {line : ℕ} {out out' : List Str} {raw : List UInt8} (h : parseRaw line out raw = .ok out') :
    Reads (lineTokens (lineText raw)) out out' := by
  unfold parseRaw at h
  split at h
  · cases h
  · exact parseText_reads h

/-- All lines. -/
theorem parseHostsBytes_reads {data : List UInt8} {out : List Str} (h : parseHostsBytes data = .ok out) :
    out ≠ [] ∧ Reads (tokens data) [] out := by
  unfold parseHostsBytes at h
  split at h
  · cases h
  obtain ⟨l, hl, hout⟩ := bind_eq_ok.1 h
  split at hout
  · cases hout
  rename_i hne
  cases hout
  refine ⟨hne, ?_⟩
  have hreads := foldlM_reads (fun a : List UInt8 × ℕ => lineTokens (lineText a.1)) (fun _ _ _ => parseRaw_reads) hl
  have hlines : ((data.splitOn 10).zipIdx 1).flatMap (fun a => lineTokens (lineText a.1)) = tokens data := by
    rw [tokens, ← List.flatMap_map Prod.fst (fun raw => lineTokens (lineText raw)), List.zipIdx_map_fst]
  rwa [hlines] at hreads

/-! ### The domains of a list -/

/-- A domain as `ParseHosts` leaves it. -/
def ParsedDomain (d : Str) : Prop := name d = some (trimStar d)

theorem plain_name {v n : Str} (h : name v = some n) : ParsedDomain n := by
  unfold ParsedDomain
  rw [trimStar_host (name_host h), name_name h]

theorem plain_star {v n : Str} (h : name v = some n) : ParsedDomain ("*.".toList ++ n) := by
  have htrim : trimStar ("*.".toList ++ n) = n := by
    rw [trimStar, cutPrefix, if_pos (List.isPrefixOf_iff_prefix.2 (List.prefix_append _ _)), List.drop_left]
    rfl
  unfold ParsedDomain
  rw [name_star h, htrim]

theorem tokenDomain_plain {t d : Str} (h : tokenDomain t = some d) : ParsedDomain d := by
  obtain ⟨n, hn, h⟩ := Option.bind_eq_some_iff.1 h
  split at h
  · cases h
  · cases h
    split
    · exact plain_star hn
    · exact plain_name hn

/-- The rule of a domain covers what is at or below it. -/
theorem covers_plain {d n : Str} (hd : ParsedDomain d) : (⟨d, true, .block⟩ : Rule).Covers n ↔ Below n (trimStar d) := by
  have hwild : (⟨d, true, .block⟩ : Rule).wild = true := by simp [Rule.wild]
  rw [Rule.Covers]
  dsimp only
  rw [hd]
  simp only [Option.some.injEq, exists_eq_left', hwild, true_and]
  exact ⟨fun h => h.elim Or.inl id, Or.inr⟩

/-- **The matcher of a list.** -/
theorem listRules_matcher {out : List Str} (h : ∀ d ∈ out, ParsedDomain d) : ∃ m, new (listRules out) = some m ∧
    ∀ v, m.blocked v = true ↔ ∃ n, name v = some n ∧ ∃ d ∈ out, Below n (trimStar d) := by
  have hsome : (new (listRules out)).isSome := by
    rw [new_isSome]
    intro r hr
    obtain ⟨d, hd, rfl⟩ := List.mem_map.1 hr
    exact Option.isSome_iff_exists.2 ⟨_, h d hd⟩
  obtain ⟨m, hm⟩ := Option.isSome_iff_exists.1 hsome
  refine ⟨m, hm, fun v => ?_⟩
  cases hn : name v with
  | none =>
    rw [blocked_none hn]
    simp
  | some n =>
    rw [blocked_iff hm hn]
    simp only [listRules, List.mem_map, Option.some.injEq, exists_eq_left']
    constructor
    · rintro ⟨⟨_, ⟨d, hd, rfl⟩, -, hc⟩, -⟩
      exact ⟨d, hd, (covers_plain (h d hd)).1 hc⟩
    · rintro ⟨d, hd, hb⟩
      refine ⟨⟨_, ⟨d, hd, rfl⟩, rfl, (covers_plain (h d hd)).2 hb⟩, ?_⟩
      rintro ⟨_, ⟨x, -, rfl⟩, hallow, -⟩
      cases hallow

/-- **What `ParseHosts` makes of any bytes.** -/
theorem parseHostsBytes_list {data : List UInt8} {out : List Str} (h : parseHostsBytes data = .ok out) :
    HostsList data out := by
  obtain ⟨hne, hreads⟩ := parseHostsBytes_reads h
  have horder : out = ((tokens data).filterMap tokenDomain).eraseDups := by rw [hreads.eq, foldl_addNew]
  have hmem : ∀ d, d ∈ out ↔ ∃ t ∈ tokens data, tokenDomain t = some d := by
    intro d
    rw [horder, List.mem_eraseDups, List.mem_filterMap]
  refine ⟨hne, ?_, hreads.length_le (by decide), fun t ht => ?_, horder, listRules_matcher fun d hd => ?_⟩
  · rw [horder, ← foldl_addNew]
    exact nodup_foldl_addNew _ List.nodup_nil
  · obtain ⟨d, hd⟩ := hreads.valid t ht
    refine ⟨d, hd, ?_⟩
    by_cases hlocal : d ∈ localNames
    · exact Or.inl hlocal
    · right
      have htoken : tokenDomain t = some (if "*.".toList.isPrefixOf t then "*.".toList ++ d else d) := by
        rw [tokenDomain, hd, Option.bind_some, if_neg hlocal]
      rw [htoken]
      exact List.mem_map_of_mem ((hmem _).2 ⟨t, ht, htoken⟩)
  · obtain ⟨t, -, ht⟩ := (hmem d).1 hd
    exact tokenDomain_plain ht

/-- `# \xff`, `0.0.0.0 localhost Ads.example` and `*.t.example`, the second with a carriage return. -/
def mixedBytes : List UInt8 :=
  [0x23, 0x20, 0xff, 10] ++ utf8 "0.0.0.0 localhost Ads.example\r\n*.t.example # t".toList

theorem parseHostsBytes_mixed : parseHostsBytes mixedBytes = .ok ["ads.example".toList, "*.t.example".toList] ∧
    HostsList mixedBytes ["ads.example".toList, "*.t.example".toList] := by
  have h : parseHostsBytes mixedBytes = .ok ["ads.example".toList, "*.t.example".toList] := by decide +kernel
  exact ⟨h, parseHostsBytes_list h⟩

/-! ### Bytes of a text -/

theorem length_utf8 (s : Str) : (utf8 s).length = byteLen s := by
  induction s with
  | nil => rfl
  | cons c s ih => rw [utf8_cons, List.length_append, String.length_utf8EncodeChar, ih, byteLen, byteLen, List.map_cons,
      List.sum_cons]

/-- The lines of the bytes are the bytes of the lines. -/
theorem splitOn_utf8 (s : Str) : (utf8 s).splitOn 10 = (s.splitOn '\n').map utf8 := by
  have hnl : String.utf8EncodeChar '\n' = [10] := by decide
  by_cases h : '\n' ∈ s
  · obtain ⟨a, b, rfl⟩ := List.append_of_mem h
    rw [utf8_append, utf8_cons, hnl, List.singleton_append, List.splitOn_append_cons_self, List.splitOn_append_cons_self,
      List.map_append, splitOn_utf8 a, splitOn_utf8 b]
  · have h10 : 10 ∉ utf8 s := fun h10 => h ((mem_utf8 (c := '\n') (by decide)).1 h10)
    rw [List.splitOn_eq_singleton h, List.splitOn_eq_singleton h10, List.map_singleton]
termination_by s.length
decreasing_by
  all_goals
    subst_vars
    simp only [List.length_append, List.length_cons]
    omega

/-- A carriage return is white space. -/
theorem fields_return (l : Str) : fields (l ++ ['\r']) = fields l := by
  have hsplit : (l ++ ['\r']).splitOnP isSpaceRune = l.splitOnP isSpaceRune ++ [[]] :=
    List.splitOnP_append_cons l [] (by decide)
  rw [fields, hsplit, List.filter_append, fields]
  simp

theorem lineFields_return (l : Str) : lineFields (l ++ ['\r']) = lineFields l := by
  unfold lineFields
  dsimp only
  by_cases h : ∀ c ∈ l, (decide (c ≠ '#')) = true
  · rw [List.takeWhile_append_of_pos h, List.takeWhile_eq_self_iff.2 h]
    have hone : ['\r'].takeWhile (fun c => decide (c ≠ '#')) = ['\r'] := by decide
    rw [hone]
    cases l with
    | nil => decide
    | cons c l =>
      by_cases hc : '\ufeff' = c
      · subst hc
        exact fields_return l
      · have hcut : ∀ t : Str, cutPrefix ['\ufeff'] (c :: t) = none := by
          intro t
          rw [cutPrefix, if_neg]
          simp [List.isPrefixOf, hc]
        rw [List.cons_append, hcut, hcut]
        exact fields_return (c :: l)
  · rw [List.takeWhile_append, if_neg]
    intro hlen
    exact h (List.takeWhile_eq_self_iff.1 ((List.takeWhile_prefix _).eq_of_length hlen))

/-- The line the scanner returns has the fields of the line. -/
theorem lineFields_utf8 (l : Str) : lineFields (lineText (utf8 l)) = lineFields l := by
  rw [lineText, dropCR]
  split
  · rename_i hlast
    rcases List.eq_nil_or_concat' l with rfl | ⟨a, c, rfl⟩
    · cases hlast
    obtain ⟨b, bs, heq, -⟩ := encode_cons c
    have hne : String.utf8EncodeChar c ≠ [] := by
      rw [heq]
      exact List.cons_ne_nil b bs
    have hbytes : utf8 (a ++ [c]) = utf8 a ++ String.utf8EncodeChar c := by
      rw [utf8_append, utf8_cons]
      exact congrArg (utf8 a ++ ·) (List.append_nil _)
    rw [hbytes, List.getLast?_append_of_ne_nil _ hne] at hlast
    have hc : c = '\r' := Char.toNat_inj.1 (mem_encode (by decide) (List.mem_of_getLast? hlast))
    have hreturn : String.utf8EncodeChar '\r' = [13] := by decide
    rw [hbytes, hc, hreturn, List.dropLast_concat, decode_utf8, lineFields_return]
  · rw [decode_utf8]

theorem parseRaw_utf8 (line : ℕ) (out : List Str) (l : Str) : parseRaw line out (utf8 l) = parseLine line out l := by
  unfold parseRaw parseText parseLine
  rw [length_utf8, lineFields_utf8]
  rfl

/-- **On the bytes of a text** it is the function of texts. -/
theorem parseHostsBytes_utf8 (s : Str) : parseHostsBytes (utf8 s) = parseHosts s := by
  unfold parseHostsBytes parseHosts
  rw [length_utf8, splitOn_utf8, List.zipIdx_map, List.foldlM_map]
  simp only [Prod.map_fst, Prod.map_snd, id_eq, parseRaw_utf8]

/-! ### Domains one to a line -/

/-- A domain that a list can hold as it is. -/
structure Listable (d : Str) : Prop where
  name : name d = some d
  noIP : parseIP d = none
  notLocal : d ∉ localNames

namespace Listable

variable {d : Str} (h : Listable d)

include h

theorem host : ∀ c ∈ d, hostChar c = true := name_host h.name

theorem ne_nil : d ≠ [] := (name_eq_some.1 h.name).2.1

/-- A character that is in no name is not the first one. -/
theorem notPrefix {c : Char} (hc : hostChar c = false) (s : Str) : (c :: s).isPrefixOf d = false := by
  cases hd : d with
  | nil => rfl
  | cons x xs =>
    have hx : hostChar x = true := h.host x (hd ▸ List.mem_cons_self)
    have hne : c ≠ x := fun hcx => by
      rw [hcx, hx] at hc
      cases hc
    rw [List.isPrefixOf_cons_cons, beq_false_of_ne hne, Bool.false_and]

/-- It is a line of its own. -/
theorem fields_eq : fields d = [d] := by
  rw [fields, List.splitOnP_eq_singleton fun c hc => isSpaceRune_host (h.host c hc)]
  simp [h.ne_nil]

theorem parseField_eq {line : ℕ} {out : List Str} (hnew : d ∉ out) (hlen : out.length + 1 ≤ maxDomains) :
    parseField line out d = .ok (out ++ [d]) := by
  have hstar : "*.".toList.isPrefixOf d = false := h.notPrefix (by decide) ['.']
  unfold parseField
  rw [trimStar_host h.host, h.name]
  dsimp only
  rw [h.noIP, hstar, if_neg (by simp), if_neg h.notLocal, if_neg Bool.false_ne_true, if_neg hnew, if_neg (not_lt.2 hlen)]

theorem parseLine_eq {line : ℕ} {out : List Str} (hnew : d ∉ out) (hlen : out.length + 1 ≤ maxDomains) :
    parseLine line out d = .ok (out ++ [d]) := by
  have hshort : byteLen d < maxLineBytes := lt_of_le_of_lt (name_eq_some.1 h.name).2.2.1 (by decide)
  have hcomment : d.takeWhile (fun c => decide (c ≠ '#')) = d := by
    refine List.takeWhile_eq_self_iff.2 fun c hc => decide_eq_true fun hhash => ?_
    have hchar := h.host c hc
    rw [hhash] at hchar
    revert hchar
    decide
  have hmark : cutPrefix ['\ufeff'] d = none := by
    rw [cutPrefix, h.notPrefix (by decide) [], if_neg Bool.false_ne_true]
  unfold parseLine
  rw [if_neg (not_le.2 hshort)]
  dsimp only
  rw [hcomment, hmark, Option.getD_none, h.fields_eq]
  dsimp only
  rw [h.noIP]
  simp [h.parseField_eq hnew hlen]

end Listable

/-- The lines are added to what has been read. -/
theorem foldlM_lines {l : List Str} : ∀ {out : List Str} {k : ℕ}, (∀ d ∈ l, Listable d) → (out ++ l).Nodup →
    (out ++ l).length ≤ maxDomains →
    (l.zipIdx k).foldlM (fun out (raw, line) => parseLine line out raw) out = .ok (out ++ l) := by
  induction l with
  | nil =>
    intro out k _ _ _
    rw [List.append_nil]
    rfl
  | cons d l ih =>
    intro out k hl hn hlen
    rw [List.forall_mem_cons] at hl
    have hnew : d ∉ out := fun hd => (List.nodup_append.1 hn).2.2 d hd d List.mem_cons_self rfl
    rw [List.length_append, List.length_cons] at hlen
    rw [List.zipIdx_cons, List.foldlM_cons]
    dsimp only
    rw [hl.1.parseLine_eq hnew (by omega)]
    have happend : out ++ d :: l = out ++ [d] ++ l := List.append_cons out d l
    rw [happend] at hn ⊢
    refine ih hl.2 hn ?_
    rw [List.length_append, List.length_append, List.length_singleton]
    omega

/-- **Domains that are written one to a line** are read back. -/
theorem parseHosts_lines {l : List Str} (hne : l ≠ []) (hn : l.Nodup) (hlen : l.length ≤ maxDomains)
    (hl : ∀ d ∈ l, Listable d) (hsize : byteLen (['\n'].intercalate l) ≤ maxListBytes) :
    parseHosts (['\n'].intercalate l) = .ok l := by
  have hlines : (['\n'].intercalate l).splitOn '\n' = l := by
    refine List.splitOn_intercalate '\n' (fun d hd hc => ?_) hne
    have hchar := (hl d hd).host _ hc
    revert hchar
    decide
  unfold parseHosts
  rw [if_neg (not_lt.2 hsize), hlines]
  refine bind_eq_ok.2 ⟨l, ?_, if_neg hne⟩
  exact foldlM_lines hl (by rwa [List.nil_append]) (by rwa [List.nil_append])

end Velora.Filtering
