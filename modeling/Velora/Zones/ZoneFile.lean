import Velora.Wire.Quoted
import Velora.Zones.Alike

/-!
# Zone files

`ParseZoneFile`, `importRecord` and `FormatZoneFile`. The records of a zone are written one on a line, as
`github.com/miekg/dns` prints them, and read with its parser, which keeps the strings of a TXT record in escaped form. All
else of a zone comes back (`importRecord_mapTxt`), so a zone file gives its zone back exactly when every TXT value is one that
is printed as it is (`zoneFile_iff`).
-/

namespace Velora.Zones

open Velora.Lib Velora.Lib.Text Velora.Lib.Ip Velora.Lib.Loops Velora.Wire Velora.Dns

/-- `var z Zone`. -/
def zeroZone : Zone := { id := 0, name := [], primaryNS := [], contact := [], revision := 0, records := [] }

/-- A `ZoneParser` on a text: the records that `Next` gives, and `Err`. -/
abbrev ZoneParser := Str → List RR × Option String

section

variable (lib : Miekg) (parser : ZoneParser)

/-- `importRecord`. -/
def importRecord (rr : RR) : Except Err Record :=
  let r (type : String) (value : Str) (priority : UInt16) : Except Err Record :=
    .ok { id := 0, name := rr.name, type := type.toList, ttl := rr.ttl, value, priority }
  match rr.data with
  | .a ip => r "A" (ipString ip) 0
  | .aaaa ip => r "AAAA" (ipString ip) 0
  | .cname target => r "CNAME" target 0
  | .mx preference host => r "MX" host preference
  | .ns host => r "NS" host 0
  | .ptr host => r "PTR" host 0
  | .txt parts => r "TXT" parts.flatten 0
  | _ => .error (.invalid ("unsupported zone-file record type " ++ lib.typeToString rr.rrtype))

/-- One turn of the loop of `ParseZoneFile`. -/
def readRR (z : Zone) (rr : RR) : Except Err Zone :=
  if rr.hdr.class' ≠ classINET then .error (.invalid "only IN records are supported")
  else
    match rr.data with
    | .soa d =>
      if z.name ≠ [] then .error (.invalid "zone file must contain exactly one SOA")
      else .ok { z with name := rr.name, primaryNS := d.ns, contact := d.mbox }
    | _ => do
      let r ← importRecord lib rr
      return { z with records := z.records ++ [r] }

/-- `ParseZoneFile`. -/
def parseZoneFile (input : Str) : Except Err Zone := do
  let z ← (parser input).1.foldlM (readRR lib) zeroZone
  match (parser input).2 with
  | some err => throw (.invalid ("invalid zone file: " ++ err))
  | none =>
    if z.name = [] then throw (.invalid "zone file requires one SOA record")
    normalize z

/-- The SOA record that `FormatZoneFile` writes. -/
def soaRecord (z : Zone) : RR :=
  ⟨⟨z.name, classINET, 3600⟩,
    .soa ⟨z.primaryNS, z.contact, if z.revision = 0 then 1 else z.revision, 3600, 600, 86400, 300⟩⟩

/-- The records, one on a line. -/
def lines (rrs : List RR) : Str := rrs.flatMap (fun rr => (lib.rrString rr).toList ++ ['\n'])

/-- `FormatZoneFile`. -/
def formatZoneFile (z : Zone) : Except Err Str := do
  let z ← normalize z
  let rrs ← z.records.mapM recordRR
  return lines lib (soaRecord z :: rrs)

/-- A zone that is written to a file and read from it. -/
def throughFile (z : Zone) : Except Err Zone := do
  let text ← formatZoneFile lib z
  parseZoneFile lib parser text

end

/-! ### A record that is read back -/

/-- A record with each string of a TXT record as another. -/
def mapTxt (f : Str → Str) (rr : RR) : RR :=
  { rr with
    data :=
      match rr.data with
      | .txt parts => .txt (parts.map f)
      | data => data }

/-- The library reads its printed records back, the strings of a TXT record in escaped form. -/
def ReadsBack (lib : Miekg) (parser : ZoneParser) (read : List UInt8 → List UInt8) (rrs : List RR) : Prop :=
  parser (lines lib rrs) = (rrs.map (mapTxt (quoted read)), none)

theorem flatten_splitText (room : ℕ) (cur s : Str) : (splitText room cur s).flatten = cur ++ s := by
  induction s generalizing room cur with
  | nil => rw [splitText, List.flatten_singleton, List.append_nil]
  | cons c s ih =>
    rw [splitText]
    split
    · rw [ih, List.append_assoc, List.singleton_append]
    · rw [List.flatten_cons, ih, List.singleton_append]

/-- The value that comes back, when each string of a TXT record comes back as another. -/
def backValue (f : Str → Str) (r : Record) : Str :=
  if r.type = "TXT".toList then (splitText 255 [] r.value).flatMap f else r.value

/-- The record that comes back. -/
def Record.back (f : Str → Str) (r : Record) : Record := { r.content with value := backValue f r }

theorem to4_to4 {ip v4 : List UInt8} (h : to4 ip = some v4) : to4 v4 = some v4 := by
  have hlen : v4.length = 4 := by
    unfold to4 at h
    split_ifs at h with h4 h16
    · cases h
      exact h4
    · cases h
      rw [List.length_drop, h16.1]
  rw [to4, if_pos hlen]

theorem ipString_to4 {ip v4 : List UInt8} (h : to4 ip = some v4) : ipString v4 = ipString ip := by
  rw [ipString, ipString, h, to4_to4 h]

/-- An address in normal form is the text of itself. -/
theorem ipString_of_normal {type value ip} (h : normalizeValue type value = .ok value)
    (ht : type = "A".toList ∨ type = "AAAA".toList) (hip : parseIP value = some ip) : ipString ip = value := by
  unfold normalizeValue at h
  rw [if_neg (by rcases ht with rfl | rfl <;> decide), if_pos (by rcases ht with rfl | rfl <;> decide), hip] at h
  exact Except.ok.inj h

theorem normal_parts {zone : Str} {r : Record} (h : normalizeRecord zone r = .ok r) :
    normalizeValue r.type r.value = .ok r.value ∧ (r.type ≠ "MX".toList → r.priority = 0) := by
  obtain ⟨name, -, -, -, hprio, value, hvalue, -, -, -, heq⟩ := normalizeRecord_eq_ok.1 h
  have htype : upper r.type = r.type := congrArg Record.type heq
  have hval : value = r.value := congrArg Record.value heq
  rw [htype] at hprio hvalue
  rw [hval] at hvalue
  exact ⟨hvalue, fun hmx => by_contra fun h0 => hprio ⟨hmx, h0⟩⟩

/-- What comes back of a record that is no TXT record. -/
theorem back_eq {r : Record} (f : Str → Str) {type : Str} {priority : UInt16} (ht : r.type = type)
    (hp : r.priority = priority) (htxt : type ≠ "TXT".toList) :
    r.back f = ⟨0, r.name, type, r.ttl, r.value, priority⟩ := by
  subst ht hp
  rw [Record.back, backValue, if_neg htxt]
  rfl

/-- **A record in normal form is imported from its wire record**, with the strings of a TXT record as they are there. -/
theorem importRecord_mapTxt {zone : Str} {r : Record} {rr : RR} (lib : Miekg) (f : Str → Str)
    (h : normalizeRecord zone r = .ok r) (hrr : recordRR r = .ok rr) :
    importRecord lib (mapTxt f rr) = .ok (r.back f) := by
  obtain ⟨hvalue, hprio⟩ := normal_parts h
  unfold recordRR at hrr
  dsimp only at hrr
  split_ifs at hrr with h1 h2 h3 h4 h5 h6 h7
  · split at hrr
    · rename_i ip hip
      cases hrr
      obtain ⟨raw, hraw, hv4⟩ := Option.bind_eq_some_iff.1 hip
      have hback : ipString ip = r.value := (ipString_to4 hv4).trans (ipString_of_normal hvalue (Or.inl h1) hraw)
      rw [back_eq f h1 (hprio (by rw [h1]; decide)) (by decide), ← hback]
      rfl
    · cases hrr
  · split at hrr
    · rename_i ip hip
      split_ifs at hrr
      cases hrr
      rw [back_eq f h2 (hprio (by rw [h2]; decide)) (by decide), ← ipString_of_normal hvalue (Or.inr h2) hip]
      rfl
    · cases hrr
  · cases hrr
    rw [back_eq f h3 (hprio (by rw [h3]; decide)) (by decide)]
    rfl
  · cases hrr
    rw [back_eq f h4 rfl (by decide)]
    rfl
  · cases hrr
    rw [back_eq f h5 (hprio (by rw [h5]; decide)) (by decide)]
    rfl
  · cases hrr
    rw [back_eq f h6 (hprio (by rw [h6]; decide)) (by decide)]
    rfl
  · cases hrr
    have hback : backValue f r = ((splitText 255 [] r.value).map f).flatten := by
      rw [backValue, if_pos h7, List.flatMap_def]
    have hzero : r.priority = 0 := hprio (by rw [h7]; decide)
    rw [Record.back, hback]
    obtain ⟨id, name, type, ttl, value, priority⟩ := r
    obtain rfl : type = _ := h7
    obtain rfl : priority = 0 := hzero
    rfl

/-! ### A zone that is read back -/

/-- What a zone file keeps of a zone. -/
def Zone.exported (z : Zone) : Zone :=
  { zeroZone with name := z.name, primaryNS := z.primaryNS, contact := z.contact, records := z.records.map Record.content }

section

variable {lib : Miekg} {parser : ZoneParser} {zone : Str} {f : Str → Str}

theorem readRR_eq {z : Zone} {rr : RR} {r : Record} (hclass : rr.hdr.class' = classINET)
    (h : importRecord lib rr = .ok r) : readRR lib z rr = .ok { z with records := z.records ++ [r] } := by
  unfold readRR
  rw [if_neg (not_not.2 hclass)]
  split
  · rename_i d hd
    rw [importRecord, hd] at h
    cases h
  · rw [h]
    rfl

/-- The loop of `ParseZoneFile` on the records that were written. -/
theorem foldlM_readRR {rs : List Record} {rrs : List RR} (hnormal : ∀ r ∈ rs, normalizeRecord zone r = .ok r)
    (hrrs : rs.mapM recordRR = .ok rrs) (z : Zone) :
    (rrs.map (mapTxt f)).foldlM (readRR lib) z = .ok { z with records := z.records ++ rs.map (Record.back f) } := by
  have hall := forall₂_of_mapM_ok hrrs
  clear hrrs
  induction hall generalizing z with
  | nil =>
    simp only [List.map_nil, List.append_nil]
    rfl
  | @cons r rr rs rrs hrr _ ih =>
    have hclass : (mapTxt f rr).hdr.class' = classINET := by
      rw [mapTxt, (recordRR_ok hrr).1]
    have himport := importRecord_mapTxt lib f (hnormal r List.mem_cons_self) hrr
    rw [List.map_cons, List.foldlM_cons, readRR_eq hclass himport]
    refine (ih (fun x hx => hnormal x (List.mem_cons_of_mem r hx)) _).trans ?_
    rw [List.map_cons, List.append_assoc]
    rfl

variable {read : List UInt8 → List UInt8} {z : Zone} {rrs : List RR}

/-- A zone in normal form is read back with its TXT values as they are printed, and put into normal form again. -/
theorem parseZoneFile_lines (hz : NormalZone z) (hrrs : z.records.mapM recordRR = .ok rrs)
    (hback : ReadsBack lib parser read (soaRecord z :: rrs)) : parseZoneFile lib parser (lines lib (soaRecord z :: rrs)) =
      normalize { z.exported with records := z.records.map (Record.back (quoted read)) } := by
  obtain ⟨hname, -, -, -, hnormal⟩ := normalZone_iff.1 hz
  obtain ⟨v, hv, hdot⟩ := domain_dot hname
  have hsome : z.name ≠ [] := by
    rw [hdot]
    exact List.append_ne_nil_of_left_ne_nil hv _
  have hsoa : readRR lib zeroZone (mapTxt (quoted read) (soaRecord z)) =
      .ok { zeroZone with name := z.name, primaryNS := z.primaryNS, contact := z.contact } := rfl
  have hloop : (parser (lines lib (soaRecord z :: rrs))).1.foldlM (readRR lib) zeroZone =
      .ok { z.exported with records := z.records.map (Record.back (quoted read)) } := by
    rw [hback, List.map_cons, List.foldlM_cons, hsoa]
    exact foldlM_readRR hnormal hrrs _
  have herr : (parser (lines lib (soaRecord z :: rrs))).2 = none := by rw [hback]
  rw [parseZoneFile, hloop, herr]
  exact if_neg hsome

theorem mapM_recordRR_of_normal (hz : NormalZone z) : ∃ rrs, z.records.mapM recordRR = .ok rrs := by
  obtain ⟨-, -, -, -, hnormal⟩ := normalZone_iff.1 hz
  refine exists_mapM_ok fun r hr => ?_
  obtain ⟨name, -, -, -, -, value, -, -, -, ⟨rr, hrr⟩, heq⟩ := normalizeRecord_eq_ok.1 (hnormal r hr)
  rw [heq] at hrr
  exact ⟨rr, hrr⟩

/-- A zone that comes back is the exported one when the TXT values come back. -/
theorem normalize_back (hz : NormalZone z) :
    normalize { z.exported with records := z.records.map (Record.back f) } = .ok z.exported ↔
      ∀ r ∈ z.records, backValue f r = r.value := by
  constructor
  · intro h r hr
    obtain ⟨name, -, _, -, _, -, -, records, hrecords, heq⟩ := normalize_eq_ok.1 h
    have hrs : records = z.records.map Record.content := congrArg Zone.records heq
    rw [hrs] at hrecords
    have hall := forall₂_of_mapM_ok hrecords
    rw [List.forall₂_map_left_iff, List.forall₂_map_right_iff, List.forall₂_same] at hall
    obtain ⟨_, -, -, -, -, value, hvalue, -, -, -, hr'⟩ := normalizeRecord_eq_ok.1 (hall r hr)
    have htype : upper r.type = r.type := congrArg Record.type hr'
    have hval : value = r.value := congrArg Record.value hr'
    by_cases htxt : r.type = "TXT".toList
    · have hsame : normalizeValue "TXT".toList (backValue f r) = .ok value := by
        rw [← htxt, ← htype]
        exact hvalue
      exact (Except.ok.inj hsame).trans hval
    · rw [backValue, if_neg htxt]
  · intro h
    have hsame : z.records.map (Record.back f) = z.records.map Record.content := by
      refine List.map_congr_left fun r hr => ?_
      rw [Record.back, h r hr]
      rfl
    have halike : z.Alike z.exported := ⟨rfl, rfl, rfl, by rw [Zone.exported, List.map_map]; exact List.Perm.refl _⟩
    rw [hsame]
    exact halike.normal hz

/-- **When a zone file gives its zone back**: when every TXT value is in the escaped form in which it is printed, and its
strings do not cut an escape. -/
theorem zoneFile_iff {z₀ : Zone} (hread : Unescapes read) (h : normalize z₀ = .ok z)
    (hback : ∀ rrs, z.records.mapM recordRR = .ok rrs → ReadsBack lib parser read (soaRecord z :: rrs)) :
    throughFile lib parser z₀ = .ok z.exported ↔
      ∀ r ∈ z.records, r.type = "TXT".toList → Kept false (splitText 255 [] r.value) := by
  have hz := normalize_normal h
  obtain ⟨rrs, hrrs⟩ := mapM_recordRR_of_normal hz
  have hformat : formatZoneFile lib z₀ = .ok (lines lib (soaRecord z :: rrs)) := by
    rw [formatZoneFile, h]
    show (z.records.mapM recordRR >>= _) = _
    rw [hrrs]
    rfl
  rw [throughFile, hformat]
  show parseZoneFile lib parser (lines lib (soaRecord z :: rrs)) = _ ↔ _
  rw [parseZoneFile_lines hz hrrs (hback rrs hrrs), normalize_back hz]
  refine forall₂_congr fun r hr => ?_
  by_cases htxt : r.type = "TXT".toList
  · rw [backValue, if_pos htxt, ← kept_iff hread, flatten_splitText, List.nil_append]
    exact ⟨fun h _ => h, fun h => h htxt⟩
  · rw [backValue, if_neg htxt]
    exact iff_of_true rfl fun h => absurd h htxt

end

/-! ### Two zones -/

namespace File

/-- A record as the library prints it, of the types in the samples. -/
def print (rr : RR) : Str :=
  let header (type : String) : Str := rr.name ++ '\t' :: decimal rr.ttl.toNat ++ "\tIN\t".toList ++ type.toList ++ ['\t']
  match rr.data with
  | .soa d =>
    header "SOA" ++ [' '].intercalate ([d.ns, d.mbox] ++
      [d.serial, d.refresh, d.retry, d.expire, d.minttl].map (fun n => decimal n.toNat))
  | .a ip => header "A" ++ ipString ip
  | .txt parts => header "TXT" ++ [' '].intercalate (parts.map (fun p => '"' :: quoted unescape p ++ ['"']))
  | _ => []

def lib : Miekg := { Miekg.ideal [] with rrString := fun rr => String.ofList (print rr) }

/-- A parser that reads the file of these records. -/
def parser (rrs : List RR) : ZoneParser := fun text =>
  if text = lines lib rrs then (rrs.map (mapTxt (quoted unescape)), none) else ([], some "dns: bad record")

/-- The zone `home.` with an address and a text. -/
def zone (text : Str) : Zone where
  id := 4
  name := "home.".toList
  primaryNS := "ns.home.".toList
  contact := "hostmaster.home.".toList
  revision := 7
  records := [⟨1, "www.home.".toList, "A".toList, 60, "192.0.2.8".toList, 0⟩, ⟨2, "home.".toList, "TXT".toList, 60, text, 0⟩]

/-- The records of the file. -/
def records (text : Str) : List RR :=
  [soaRecord (zone text), ⟨⟨"www.home.".toList, classINET, 60⟩, .a [192, 0, 2, 8]⟩,
    ⟨⟨"home.".toList, classINET, 60⟩, .txt (splitText 255 [] text)⟩]

example : print ⟨⟨"home.".toList, classINET, 60⟩, .txt ["é\"".toList]⟩ = "home.\t60\tIN\tTXT\t\"\\195\\169\\\"\"".toList := by
  decide +kernel

end File

/-- A text with an escaped double quote. -/
theorem zoneFile_escaped : throughFile File.lib (File.parser (File.records "h\\\"".toList)) (File.zone "h\\\"".toList) =
    .ok (File.zone "h\\\"".toList).exported := by
  have hz : normalize (File.zone "h\\\"".toList) = .ok (File.zone "h\\\"".toList) := by decide +kernel
  refine (zoneFile_iff unescape_unescapes hz fun rrs hrrs => ?_).2 ?_
  · have hrun : (File.zone "h\\\"".toList).records.mapM recordRR = .ok (File.records "h\\\"".toList).tail := by decide +kernel
    rw [hrun] at hrrs
    cases hrrs
    exact if_pos rfl
  · intro r hr htxt
    simp only [File.zone, List.mem_cons, List.not_mem_nil, or_false] at hr
    rcases hr with rfl | rfl
    · exact absurd htxt (by decide)
    · have hsplit : splitText 255 [] "h\\\"".toList = ["h\\\"".toList] := by decide
      rw [hsplit]
      exact .bare (by unfold Bare; decide) (.pair (Or.inl rfl) (.next .done))

/-- The text `é` comes back as `\195\169`. -/
theorem zoneFile_not_kept : normalize (File.zone "é".toList) = .ok (File.zone "é".toList) ∧ Unescapes unescape ∧
    (∀ rrs, (File.zone "é".toList).records.mapM recordRR = .ok rrs →
      ReadsBack File.lib (File.parser (File.records "é".toList)) unescape (soaRecord (File.zone "é".toList) :: rrs)) ∧
    throughFile File.lib (File.parser (File.records "é".toList)) (File.zone "é".toList) ≠ .ok (File.zone "é".toList).exported := by
  refine ⟨by decide +kernel, unescape_unescapes, fun rrs hrrs => ?_, by decide +kernel⟩
  have hrun : (File.zone "é".toList).records.mapM recordRR = .ok (File.records "é".toList).tail := by decide +kernel
  rw [hrun] at hrrs
  cases hrrs
  exact if_pos rfl

end Velora.Zones
