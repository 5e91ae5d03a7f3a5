import Velora.Dns.Base

/-!
# Full zone transfers

`AXFR` of `internal/dns/transfer.go`, the client. It adds up the SOA records it has read and stops after the message with the
second, so what it returns depends on where messages end: a record that follows the second SOA in the same message is taken,
and so is what comes before the first (`axfr_framed_iff`).
-/

namespace Velora.Dns

open Velora.Lib Velora.Lib.Text Velora.Wire

abbrev typeAXFR : UInt16 := 252

inductive TransferState where
  | idle | running | complete | failed
  deriving DecidableEq

structure TransferResult where
  state : TransferState
  records : List RR := []
  soa : Option SOA := none
  errors : List String := []
  deriving DecidableEq

/-- What a turn of the loop finds: `ctx.Err()`, and what `ReadMsg` returns. -/
structure Reading where
  cancelled : Option String := none
  read : Except String Msg

/-- What the outside does to a transfer, call by call. -/
structure Conversation where
  dial : Option String := none
  soaID : UInt16 := 0
  signSOA : Msg → Str → Except String Msg := fun m _ => .ok m
  sendSOA : Msg → Option String := fun _ => none
  soaResponse : Except String Msg
  axfrID : UInt16 := 0
  signAXFR : Msg → Str → Except String Msg := fun m _ => .ok m
  sendAXFR : Msg → Option String := fun _ => none
  readings : List Reading := []

namespace TransferResult

def fails (result : TransferResult) (e : String) : TransferResult := { result with errors := result.errors ++ [e] }

/-- The deferred function. -/
def finish (result : TransferResult) : TransferResult :=
  { result with state := if result.errors.length > 0 then .failed else .complete }

/-- One record of an answer; the second component counts the SOA records. -/
def collect (acc : TransferResult × ℕ) (rr : RR) : TransferResult × ℕ :=
  if rr.rrtype ≠ typeOPT then
    let result := { acc.1 with records := acc.1.records ++ [rr] }
    match rr.soa? with
    | some soa => ({ result with soa := some soa }, acc.2 + 1)
    | none => (result, acc.2)
  else acc

end TransferResult

section

variable (lib : Miekg) (tsigStore : Bool) (zone tsigKeyName : Str)

/-- A query without recursion. -/
def transferQuery (id : UInt16) (qtype : UInt16) : Msg := { setQuestion id zone qtype with recursionDesired := false }

/-- The signature, when there is a store of keys and a key is named. -/
def signed (sign : Msg → Str → Except String Msg) (m : Msg) : Except String Msg :=
  if tsigStore = true ∧ tsigKeyName ≠ [] then sign m tsigKeyName else .ok m

/-- The connection and the SOA query. -/
def querySOA (c : Conversation) : Except String (Option SOA) :=
  match c.dial with
  | some e => .error ("connect to primary: " ++ e)
  | none => do
    let m ← signed tsigStore tsigKeyName c.signSOA (transferQuery zone c.soaID typeSOA)
    match c.sendSOA m with
    | some e => .error ("send SOA query: " ++ e)
    | none =>
      match c.soaResponse with
      | .error e => .error ("read SOA response: " ++ e)
      | .ok r =>
        if r.rcode ≠ rcodeSuccess ∨ r.answer.length = 0 then .error ("SOA query failed: " ++ lib.rcodeToString r.rcode)
        else .ok (r.answer.findSome? RR.soa?)

/-- The AXFR query. -/
def queryAXFR (c : Conversation) : Except String Unit := do
  let m ← signed tsigStore tsigKeyName c.signAXFR (transferQuery zone c.axfrID typeAXFR)
  match c.sendAXFR m with
  | some e => .error ("send AXFR query: " ++ e)
  | none => .ok ()

/-- The loop; it is nothing when the readings end before it does. -/
def axfrLoop : List Reading → TransferResult → ℕ → Option TransferResult
  | [], _, _ => none
  | t :: ts, result, soaCount =>
    match t.cancelled with
    | some e => some (result.fails e)
    | none =>
      match t.read with
      | .error e => some (result.fails ("read AXFR response: " ++ e))
      | .ok response =>
        if response.rcode ≠ rcodeSuccess then some (result.fails ("AXFR failed: " ++ lib.rcodeToString response.rcode))
        else
          let acc := response.answer.foldl TransferResult.collect (result, soaCount)
          if acc.2 ≥ 2 then some acc.1 else axfrLoop ts acc.1 acc.2

/-- `AXFR`; the error it also returns is always `nil`. -/
def axfr (c : Conversation) : Option TransferResult :=
  let result : TransferResult := { state := .running }
  (match querySOA lib tsigStore zone tsigKeyName c with
    | .error e => some (result.fails e)
    | .ok soa =>
      let result := { result with soa := soa }
      match queryAXFR tsigStore zone tsigKeyName c with
      | .error e => some (result.fails e)
      | .ok _ => axfrLoop lib c.readings result 0).map TransferResult.finish

end

/-! ### Streams of records -/

/-- The records that are no OPT records. -/
def dataRecords (rrs : List RR) : List RR := rrs.filter (fun rr => rr.rrtype ≠ typeOPT)

/-- The SOA records. -/
def soas (rrs : List RR) : List SOA := rrs.filterMap RR.soa?

/-- A result with what has been read. -/
def TransferResult.reads (result : TransferResult) (rrs : List RR) : TransferResult :=
  { result with records := result.records ++ dataRecords rrs, soa := (soas rrs).getLast?.or result.soa }

theorem dataRecords_append (l l' : List RR) : dataRecords (l ++ l') = dataRecords l ++ dataRecords l' := List.filter_append l l'

theorem soas_append (l l' : List RR) : soas (l ++ l') = soas l ++ soas l' := List.filterMap_append

theorem soa_kept {rr : RR} {soa : SOA} (h : rr.soa? = some soa) : rr.rrtype ≠ typeOPT := by
  have hsoa := (rr.soa?_isSome_iff).1 (by rw [h]; rfl)
  rw [hsoa]
  decide

theorem reads_reads (result : TransferResult) (l l' : List RR) : (result.reads l).reads l' = result.reads (l ++ l') := by
  unfold TransferResult.reads
  rw [dataRecords_append, soas_append, List.getLast?_append, List.append_assoc, Option.or_assoc]

/-- **The loop over the records of an answer.** -/
theorem foldl_collect (rrs : List RR) (result : TransferResult) (n : ℕ) :
    rrs.foldl TransferResult.collect (result, n) = (result.reads rrs, n + (soas rrs).length) := by
  induction rrs generalizing result n with
  | nil => simp [TransferResult.reads, dataRecords, soas]
  | cons rr rrs ih =>
    have hone : TransferResult.collect (result, n) rr = (result.reads [rr], n + (soas [rr]).length) := by
      unfold TransferResult.collect TransferResult.reads dataRecords soas
      dsimp only
      cases hsoa : rr.soa? with
      | some soa => simp [soa_kept hsoa, hsoa]
      | none => by_cases hopt : rr.rrtype = typeOPT <;> simp [hopt, hsoa]
    have hlen : (soas [rr]).length + (soas rrs).length = (soas (rr :: rrs)).length := by
      rw [← List.length_append, ← soas_append]
      rfl
    rw [List.foldl_cons, hone, ih, reads_reads, Nat.add_assoc, hlen]
    rfl

/-- A turn that ends the loop with an error: the context has ended, the read fails or the primary server refuses. -/
def Reading.Stops (t : Reading) : Prop :=
  t.cancelled ≠ none ∨ ∀ m, t.read = .ok m → m.rcode ≠ rcodeSuccess

/-- The turns that read these messages, with what follows. -/
def readings (ms : List Msg) (more : List Reading) : List Reading := ms.map (fun m => ⟨none, .ok m⟩) ++ more

/-- The messages without an error that a stream of records has been split into. -/
structure Splits (s : List RR) (ms : List Msg) : Prop where
  success : ∀ m ∈ ms, m.rcode = rcodeSuccess
  answers : ms.flatMap Msg.answer = s

section

variable {lib : Miekg} {result : TransferResult} {n : ℕ} {more : List Reading}

/-- **One message.** -/
theorem axfrLoop_message {m : Msg} (hm : m.rcode = rcodeSuccess) :
    axfrLoop lib (⟨none, .ok m⟩ :: more) result n =
      if n + (soas m.answer).length ≥ 2 then some (result.reads m.answer)
      else axfrLoop lib more (result.reads m.answer) (n + (soas m.answer).length) := by
  rw [axfrLoop]
  dsimp only
  rw [if_neg (not_not.2 hm), foldl_collect]

theorem axfrLoop_stops {t : Reading} (ht : t.Stops) : ∃ e, axfrLoop lib (t :: more) result n = some (result.fails e) := by
  unfold axfrLoop
  cases hc : t.cancelled with
  | some e => exact ⟨e, rfl⟩
  | none =>
    cases hr : t.read with
    | error e => exact ⟨_, rfl⟩
    | ok m =>
      dsimp only
      rw [if_pos (ht.resolve_left (not_not.2 hc) m hr)]
      exact ⟨_, rfl⟩

/-- Messages before the second SOA are all read. -/
theorem axfrLoop_before {ms : List Msg} (hms : ∀ m ∈ ms, m.rcode = rcodeSuccess)
    (hn : n + (soas (ms.flatMap Msg.answer)).length < 2) :
    axfrLoop lib (readings ms more) result n =
      axfrLoop lib more (result.reads (ms.flatMap Msg.answer)) (n + (soas (ms.flatMap Msg.answer)).length) := by
  induction ms generalizing result n with
  | nil => simp [readings, TransferResult.reads, dataRecords, soas]
  | cons m ms ih =>
    rw [List.forall_mem_cons] at hms
    rw [List.flatMap_cons, soas_append, List.length_append] at hn ⊢
    have hrest := @ih (result.reads m.answer) (n + (soas m.answer).length) hms.2 (by omega)
    rw [readings, List.map_cons, List.cons_append, axfrLoop_message hms.1, if_neg (by omega)]
    refine hrest.trans ?_
    rw [reads_reads, Nat.add_assoc]

/-- The loop ends with the message that has the second SOA. -/
theorem axfrLoop_after {ms : List Msg} (hms : ∀ m ∈ ms, m.rcode = rcodeSuccess) (hlt : n < 2)
    (hn : n + (soas (ms.flatMap Msg.answer)).length ≥ 2) :
    ∃ p, p <+: ms.flatMap Msg.answer ∧ n + (soas p).length ≥ 2 ∧
      axfrLoop lib (readings ms more) result n = some (result.reads p) := by
  induction ms generalizing result n with
  | nil => exact absurd hn (by simp [soas]; omega)
  | cons m ms ih =>
    rw [List.forall_mem_cons] at hms
    rw [List.flatMap_cons, soas_append, List.length_append] at hn
    rw [readings, List.map_cons, List.cons_append, axfrLoop_message hms.1, List.flatMap_cons]
    by_cases hm : n + (soas m.answer).length ≥ 2
    · exact ⟨m.answer, List.prefix_append _ _, hm, if_pos hm⟩
    · obtain ⟨p, hp, hsoas, hloop⟩ := @ih (result.reads m.answer) (n + (soas m.answer).length) hms.2 (by omega) (by omega)
      refine ⟨m.answer ++ p, (List.prefix_append_right_inj _).2 hp, ?_, ?_⟩
      · rw [soas_append, List.length_append]
        omega
      · rw [if_neg hm, ← reads_reads]
        exact hloop

end

/-! ### Framing -/

/-- The records of a transfer, from its opening SOA record to the next one, which closes it. -/
def Enclosed (core : List RR) : Prop :=
  ∃ opening body closing, core = opening :: body ++ [closing] ∧ opening.soa?.isSome = true ∧ closing.soa?.isSome = true ∧
    soas body = []

section

variable (lib : Miekg) (tsigStore : Bool) (zone tsigKeyName : Str)

/-- The primary server can be reached and both queries are sent. -/
def Opens (c : Conversation) : Prop :=
  ∃ soa, querySOA lib tsigStore zone tsigKeyName c = .ok soa ∧ queryAXFR tsigStore zone tsigKeyName c = .ok ()

/-- The result does not depend on how a stream is split into messages, whatever comes after it, and a complete one has the
records from the opening SOA to the closing one. -/
structure Framed (c : Conversation) (s : List RR) : Prop where
  complete : ∀ ms t more, Splits s ms → t.Stops → ∀ r,
    axfr lib tsigStore zone tsigKeyName { c with readings := readings ms (t :: more) } = some r → r.state = .complete →
      ∃ core rest, s = core ++ rest ∧ Enclosed core ∧ r.records = dataRecords core
  independent : ∀ ms t more ms' t' more', Splits s ms → t.Stops → Splits s ms' → t'.Stops → ∀ r r',
    axfr lib tsigStore zone tsigKeyName { c with readings := readings ms (t :: more) } = some r →
      axfr lib tsigStore zone tsigKeyName { c with readings := readings ms' (t' :: more') } = some r' →
        r.records = r'.records ∧ r.soa = r'.soa

variable {lib tsigStore zone tsigKeyName} {c : Conversation} {s : List RR}

/-- A transfer that cannot begin. -/
theorem axfr_of_not_opens (h : ¬ Opens lib tsigStore zone tsigKeyName c) : ∃ r, r.state = .failed ∧
    ∀ rs, axfr lib tsigStore zone tsigKeyName { c with readings := rs } = some r := by
  cases hsoa : querySOA lib tsigStore zone tsigKeyName c with
  | error e =>
    refine ⟨(TransferResult.fails { state := .running } e).finish, rfl, fun rs => ?_⟩
    unfold axfr
    rw [show querySOA lib tsigStore zone tsigKeyName { c with readings := rs } = .error e from hsoa]
    rfl
  | ok soa =>
    cases haxfr : queryAXFR tsigStore zone tsigKeyName c with
    | error e =>
      refine ⟨(TransferResult.fails { state := .running, soa := soa } e).finish, rfl, fun rs => ?_⟩
      unfold axfr
      rw [show querySOA lib tsigStore zone tsigKeyName { c with readings := rs } = .ok soa from hsoa]
      dsimp only
      rw [show queryAXFR tsigStore zone tsigKeyName { c with readings := rs } = .error e from haxfr]
      rfl
    | ok _ => exact absurd ⟨soa, hsoa, haxfr⟩ h

/-- A transfer that begins is the loop. -/
theorem axfr_of_opens {soa : Option SOA} (hsoa : querySOA lib tsigStore zone tsigKeyName c = .ok soa)
    (haxfr : queryAXFR tsigStore zone tsigKeyName c = .ok ()) (rs : List Reading) :
    axfr lib tsigStore zone tsigKeyName { c with readings := rs } =
      (axfrLoop lib rs { state := .running, soa := soa } 0).map TransferResult.finish := by
  unfold axfr
  rw [show querySOA lib tsigStore zone tsigKeyName { c with readings := rs } = .ok soa from hsoa]
  dsimp only
  rw [show queryAXFR tsigStore zone tsigKeyName { c with readings := rs } = .ok () from haxfr]

/-- A stream that stops before the second SOA. -/
theorem axfr_before {ms : List Msg} (hms : ∀ m ∈ ms, m.rcode = rcodeSuccess)
    (hn : (soas (ms.flatMap Msg.answer)).length < 2) {t : Reading} (ht : t.Stops) {more : List Reading} :
    ∃ r, axfr lib tsigStore zone tsigKeyName { c with readings := readings ms (t :: more) } = some r ∧ r.state = .failed ∧
      ∀ soa, querySOA lib tsigStore zone tsigKeyName c = .ok soa → queryAXFR tsigStore zone tsigKeyName c = .ok () →
        r.records = dataRecords (ms.flatMap Msg.answer) ∧ r.soa = (soas (ms.flatMap Msg.answer)).getLast?.or soa := by
  by_cases hopens : Opens lib tsigStore zone tsigKeyName c
  · obtain ⟨soa, hsoa, haxfr⟩ := hopens
    have hloop : axfrLoop lib (readings ms (t :: more)) { state := .running, soa := soa } 0 = _ :=
      axfrLoop_before hms (by omega)
    obtain ⟨e, he⟩ : ∃ e, axfrLoop lib (t :: more) (TransferResult.reads { state := .running, soa := soa }
        (ms.flatMap Msg.answer)) (0 + (soas (ms.flatMap Msg.answer)).length) = some _ := axfrLoop_stops ht
    refine ⟨_, by rw [axfr_of_opens hsoa haxfr, hloop, he]; rfl, ?_, ?_⟩
    · simp [TransferResult.finish, TransferResult.fails]
    · rintro soa' hsoa' -
      cases hsoa.symm.trans hsoa'
      exact ⟨rfl, rfl⟩
  · obtain ⟨r, hr, hall⟩ := axfr_of_not_opens hopens
    exact ⟨r, hall _, hr, fun soa hsoa haxfr => absurd ⟨soa, hsoa, haxfr⟩ hopens⟩

/-- A stream with a second SOA. -/
theorem axfr_after {soa : Option SOA} (hsoa : querySOA lib tsigStore zone tsigKeyName c = .ok soa)
    (haxfr : queryAXFR tsigStore zone tsigKeyName c = .ok ()) {ms : List Msg} (hms : Splits s ms) (hn : 2 ≤ (soas s).length)
    (more : List Reading) : ∃ r p, axfr lib tsigStore zone tsigKeyName { c with readings := readings ms more } = some r ∧
      r.state = .complete ∧ p <+: s ∧ 2 ≤ (soas p).length ∧ r.records = dataRecords p ∧ r.soa = (soas p).getLast?.or soa := by
  obtain ⟨p, hp, hsoas, hloop⟩ : ∃ p, p <+: ms.flatMap Msg.answer ∧ 0 + (soas p).length ≥ 2 ∧
      axfrLoop lib (readings ms more) { state := .running, soa := soa } 0 = some _ :=
    axfrLoop_after hms.success (by omega) (by rw [hms.answers]; omega)
  rw [hms.answers] at hp
  refine ⟨_, p, by rw [axfr_of_opens hsoa haxfr, hloop]; rfl, rfl, hp, by omega, rfl, rfl⟩

theorem soas_of_dataRecords {l : List RR} (h : dataRecords l = []) : soas l = [] := by
  refine List.filterMap_eq_nil_iff.2 fun rr hrr => ?_
  cases hsoa : rr.soa? with
  | none => rfl
  | some soa =>
    have hmem : rr ∈ dataRecords l := List.mem_filter.2 ⟨hrr, decide_eq_true (soa_kept hsoa)⟩
    rw [h] at hmem
    cases hmem

theorem soas_cons {rr : RR} (h : rr.soa?.isSome = true) (l : List RR) : (soas (rr :: l)).length = (soas l).length + 1 := by
  obtain ⟨soa, hsoa⟩ := Option.isSome_iff_exists.1 h
  rw [soas, List.filterMap_cons, hsoa]
  rfl

/-- What is read up to the second SOA or more is the core and what follows it. -/
theorem Enclosed.prefix_eq {core rest p : List RR} (hcore : Enclosed core) (hrest : dataRecords rest = [])
    (hp : p <+: core ++ rest) (hn : 2 ≤ (soas p).length) : dataRecords p = dataRecords core ∧ soas p = soas core := by
  obtain ⟨opening, body, closing, rfl, hopening, -, hbody⟩ := hcore
  rcases List.prefix_or_prefix_of_prefix hp (List.prefix_append _ rest) with hshort | hlong
  · -- a shorter prefix has one SOA record only
    rcases List.prefix_concat_iff.1 hshort with rfl | hshort
    · exact ⟨rfl, rfl⟩
    · have hle : (soas p).length ≤ (soas (opening :: body)).length := (hshort.sublist.filterMap RR.soa?).length_le
      rw [soas_cons hopening, hbody, List.length_nil] at hle
      omega
  · obtain ⟨q, rfl⟩ := hlong
    have hq : dataRecords q = [] := by
      refine List.eq_nil_of_sublist_nil ?_
      rw [← hrest]
      exact ((List.prefix_append_right_inj _).1 hp).sublist.filter _
    rw [dataRecords_append, soas_append, hq, soas_of_dataRecords hq, List.append_nil, List.append_nil]
    exact ⟨rfl, rfl⟩

theorem splits_one (s : List RR) : Splits s [{ answer := s }] := ⟨by simp, by simp⟩

/-- A framed stream with two SOA records ends with the second. -/
theorem Framed.enclosed (h : Framed lib tsigStore zone tsigKeyName c s) (hopens : Opens lib tsigStore zone tsigKeyName c)
    (hn : 2 ≤ (soas s).length) : ∃ core rest, s = core ++ rest ∧ Enclosed core ∧ dataRecords rest = [] := by
  obtain ⟨soa, hsoa, haxfr⟩ := hopens
  -- all records in one message
  have hloop : axfrLoop lib (readings [{ answer := s }] [⟨none, .error "EOF"⟩]) { state := .running, soa := soa } 0 =
      some (TransferResult.reads { state := .running, soa := soa } s) := by
    refine (axfrLoop_message rfl).trans (if_pos ?_)
    dsimp only
    omega
  obtain ⟨core, rest, rfl, hcore, hrecords⟩ := h.complete _ ⟨none, .error "EOF"⟩ [] (splits_one s) (Or.inr fun m hm => by cases hm)
    _ (by rw [axfr_of_opens hsoa haxfr, hloop]; rfl) rfl
  have hall : dataRecords (core ++ rest) = dataRecords core := hrecords
  rw [dataRecords_append] at hall
  exact ⟨core, rest, rfl, hcore, List.append_right_eq_self.1 hall⟩

/-- A stream that ends with its second SOA record is framed. -/
theorem framed_of_enclosed {soa : Option SOA} (hsoa : querySOA lib tsigStore zone tsigKeyName c = .ok soa)
    (haxfr : queryAXFR tsigStore zone tsigKeyName c = .ok ()) {core rest : List RR} (hcore : Enclosed core)
    (hrest : dataRecords rest = []) (hn : 2 ≤ (soas (core ++ rest)).length) :
    Framed lib tsigStore zone tsigKeyName c (core ++ rest) := by
  have hresult : ∀ ms more r, Splits (core ++ rest) ms →
      axfr lib tsigStore zone tsigKeyName { c with readings := readings ms more } = some r →
        r.records = dataRecords core ∧ r.soa = (soas core).getLast?.or soa := by
    intro ms more r hms hr
    obtain ⟨r', p, hr', -, hp, hsoas, hrecords, hlast⟩ := axfr_after hsoa haxfr hms hn more
    cases hr.symm.trans hr'
    obtain ⟨hsame, hsoas⟩ := hcore.prefix_eq hrest hp hsoas
    exact ⟨hrecords.trans hsame, hlast.trans (by rw [hsoas])⟩
  refine ⟨fun ms t more hms _ r hr _ => ⟨core, rest, rfl, hcore, (hresult ms _ r hms hr).1⟩, ?_⟩
  intro ms t more ms' t' more' hms _ hms' _ r r' hr hr'
  obtain ⟨hrecords, hlast⟩ := hresult ms _ r hms hr
  obtain ⟨hrecords', hlast'⟩ := hresult ms' _ r' hms' hr'
  exact ⟨hrecords.trans hrecords'.symm, hlast.trans hlast'.symm⟩

/-- A stream that always fails, and in one way, is framed. -/
theorem framed_of_failed (records : List RR) (last : Option SOA) (h : ∀ ms t more r, Splits s ms → t.Stops →
      axfr lib tsigStore zone tsigKeyName { c with readings := readings ms (t :: more) } = some r →
        r.state = .failed ∧ r.records = records ∧ r.soa = last) : Framed lib tsigStore zone tsigKeyName c s := by
  refine ⟨fun ms t more hms ht r hr hstate => ?_, ?_⟩
  · rw [(h ms t more r hms ht hr).1] at hstate
    cases hstate
  · intro ms t more ms' t' more' hms ht hms' ht' r r' hr hr'
    obtain ⟨-, hrecords, hlast⟩ := h ms t more r hms ht hr
    obtain ⟨-, hrecords', hlast'⟩ := h ms' t' more' r' hms' ht' hr'
    exact ⟨hrecords.trans hrecords'.symm, hlast.trans hlast'.symm⟩

theorem framed_of_not_opens (h : ¬ Opens lib tsigStore zone tsigKeyName c) : Framed lib tsigStore zone tsigKeyName c s := by
  obtain ⟨r', hstate, hall⟩ := axfr_of_not_opens h
  refine framed_of_failed r'.records r'.soa fun ms t more r _ _ hr => ?_
  cases hr.symm.trans (hall _)
  exact ⟨hstate, rfl, rfl⟩

theorem framed_of_short {soa : Option SOA} (hsoa : querySOA lib tsigStore zone tsigKeyName c = .ok soa)
    (haxfr : queryAXFR tsigStore zone tsigKeyName c = .ok ()) (hn : (soas s).length < 2) :
    Framed lib tsigStore zone tsigKeyName c s := by
  refine framed_of_failed (dataRecords s) ((soas s).getLast?.or soa) fun ms t more r hms ht hr => ?_
  obtain ⟨r', hr', hstate, hrest⟩ := axfr_before hms.success (by rw [hms.answers]; exact hn) ht
  cases hr.symm.trans hr'
  rw [hms.answers] at hrest
  exact ⟨hstate, hrest soa hsoa haxfr⟩

variable (lib tsigStore zone tsigKeyName c s)

/-- **Framing.** How a stream of records is split into messages does not matter, and a complete transfer has the records from
the opening SOA to the closing one, exactly when the transfer does not begin, or the stream has fewer than two SOA records, or
it begins with one and nothing but OPT records follows the second. In every case a failure before the second SOA is reported. -/
theorem axfr_framed_iff : (Framed lib tsigStore zone tsigKeyName c s ↔
      (Opens lib tsigStore zone tsigKeyName c → 2 ≤ (soas s).length →
        ∃ core rest, s = core ++ rest ∧ Enclosed core ∧ dataRecords rest = [])) ∧
    ∀ ms t more, (∀ m ∈ ms, m.rcode = rcodeSuccess) → (soas (ms.flatMap Msg.answer)).length < 2 → t.Stops →
      ∃ r, axfr lib tsigStore zone tsigKeyName { c with readings := readings ms (t :: more) } = some r ∧ r.state = .failed := by
  refine ⟨⟨Framed.enclosed, fun h => ?_⟩, fun ms t more hms hn ht => ?_⟩
  · by_cases hopens : Opens lib tsigStore zone tsigKeyName c
    · by_cases hn : 2 ≤ (soas s).length
      · obtain ⟨core, rest, rfl, hcore, hrest⟩ := h hopens hn
        obtain ⟨soa, hsoa, haxfr⟩ := hopens
        exact framed_of_enclosed hsoa haxfr hcore hrest hn
      · obtain ⟨soa, hsoa, haxfr⟩ := hopens
        exact framed_of_short hsoa haxfr (not_le.1 hn)
    · exact framed_of_not_opens hopens
  · obtain ⟨r, hr, hstate, -⟩ := axfr_before hms hn ht
    exact ⟨r, hr, hstate⟩

end

namespace Tail

def soa : RR := ⟨⟨"lan.".toList, classINET, 60⟩, .soa ⟨"ns.lan.".toList, "admin.lan.".toList, 7, 0, 0, 0, 0⟩⟩
def host (name : String) : RR := ⟨⟨name.toList, classINET, 60⟩, .a [192, 0, 2, 1]⟩

/-- A record after the closing SOA. -/
def stream : List RR := [soa, host "www.lan.", soa, host "late.lan."]

def conversation (parts : List (List RR)) : Conversation :=
  { soaResponse := .ok { answer := [soa] },
    readings := readings (parts.map (fun part => { answer := part })) [⟨none, .error "EOF"⟩] }

/-- The transfer of the stream in these parts. -/
def transfer (parts : List (List RR)) : Option TransferResult := axfr (.ideal []) false "lan.".toList [] (conversation parts)

end Tail

open Tail in
/-- The same stream in two ways: with the last record in the message of the closing SOA it is taken. -/
theorem axfr_tail : transfer [stream] = some ⟨.complete, stream, soa.soa?, []⟩ ∧
    transfer [[soa, host "www.lan.", soa], [host "late.lan."]] = some ⟨.complete, [soa, host "www.lan.", soa], soa.soa?, []⟩ ∧
    ¬ Framed (.ideal []) false "lan.".toList [] (conversation []) stream := by
  have hone : transfer [stream] = some ⟨.complete, stream, soa.soa?, []⟩ := by decide +kernel
  have htwo : transfer [[soa, host "www.lan.", soa], [host "late.lan."]] =
      some ⟨.complete, [soa, host "www.lan.", soa], soa.soa?, []⟩ := by decide +kernel
  refine ⟨hone, htwo, fun h => ?_⟩
  have hsplits : ∀ parts : List (List RR), parts.flatten = stream → Splits stream (parts.map (fun part => { answer := part })) := by
    intro parts hparts
    refine ⟨by simp, ?_⟩
    rw [← hparts, List.flatMap_map, List.flatMap_id']
  have hstops : Reading.Stops ⟨none, .error "EOF"⟩ := Or.inr fun m hm => by cases hm
  have hsame := (h.independent _ _ [] _ _ [] (hsplits [stream] rfl) hstops
    (hsplits [[soa, host "www.lan.", soa], [host "late.lan."]] rfl) hstops _ _ hone htwo).1
  revert hsame
  decide +kernel

end Velora.Dns
