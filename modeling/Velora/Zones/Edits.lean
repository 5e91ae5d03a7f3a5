import Velora.Zones.Transfers

/-!
# The zone handlers of the management API

`internal/api/zones.go`, `zone_records.go` and `zone_validation.go`. A handler reads the zone, checks `If-Match` against its
revision, and asks the service for an update with the zone that the request makes of it. Between the two other calls can
change the zone, but then the revision does not fit any more (`Known.eq`). The handlers of the records start from the zone
that was read, so that an update keeps what they do not change; the one of the zone starts from the request, and what a
request cannot express is lost (`edit_preserves_iff`).
-/

namespace Velora.Zones

open Velora.Lib Velora.Lib.Text Velora.Lib.Loops Velora.Wire Velora.Dns

/-! ### Requests -/

/-- What `failure` writes. -/
structure HttpFailure where
  status : ℕ
  code : String
  message : String
  deriving DecidableEq

/-- `zoneInput`. -/
structure ZoneInput where
  name : Str
  primaryNS : Str
  contact : Str
  records : List Record
  deriving DecidableEq

/-- The zone of a request, `zones.Zone{Name: input.Name, …}`. -/
def ZoneInput.zone (input : ZoneInput) : Zone where
  id := 0
  name := input.name
  primaryNS := input.primaryNS
  contact := input.contact
  revision := 0
  records := input.records

/-- The edits of a zone. A body is what `readJSON` makes of it. -/
inductive ZoneEdit where
  /-- `PUT /api/v1/zones/{id}` -/
  | putZone (input : Except HttpFailure ZoneInput)
  /-- `POST /api/v1/zones/{id}/records` -/
  | postRecord (record : Except HttpFailure Record)
  /-- `PUT /api/v1/zones/{id}/records/{recordID}` -/
  | putRecord (recordID : Str) (record : Except HttpFailure Record)
  /-- `DELETE /api/v1/zones/{id}/records/{recordID}` -/
  | deleteRecord (recordID : Str)

structure EditRequest where
  /-- the path value `id` -/
  id : Str
  /-- the values of `If-Match` -/
  ifMatch : List Str
  edit : ZoneEdit

/-- What a handler writes when it succeeds. -/
structure ZoneReply where
  status : ℕ
  etag : Str
  location : Option Str := none
  zone : Zone
  deriving DecidableEq

/-! ### Checks -/

/-- `strconv.ParseUint(s, 10, bits)`. -/
def parseUint (bits : ℕ) (s : Str) : Option ℕ :=
  if s ≠ [] ∧ s.all Char.isDigit ∧ Nat.ofDigitChars 10 s 0 < 2 ^ bits then some (Nat.ofDigitChars 10 s 0) else none

/-- `strconv.ParseInt(s, 10, 64)`: the digits with or without a sign. -/
def parseInt64 : Str → Option ℤ
  | '+' :: s => (parseUint 63 s).map Int.ofNat
  | '-' :: s => ((parseUint 64 s).filter (fun n => n ≤ 2 ^ 63)).map (fun n => -(n : ℤ))
  | s => (parseUint 63 s).map Int.ofNat

/-- `zoneID`. -/
def zoneID (value : Str) : Except HttpFailure ℤ :=
  match parseInt64 value with
  | some id => if id ≤ 0 then .error ⟨400, "invalid_id", "ID must be a positive integer"⟩ else .ok id
  | none => .error ⟨400, "invalid_id", "ID must be a positive integer"⟩

/-- `zoneFailure`. -/
def zoneFailure : Err → HttpFailure
  | .notFound => ⟨404, "not_found", "Zone or record not found"⟩
  | .conflict => ⟨412, "revision_conflict", "Zone changed; reload before retrying"⟩
  | .exists => ⟨409, "zone_exists", "A zone with this name already exists"⟩
  | .invalid message => ⟨400, "invalid_zone", "invalid zone: " ++ message⟩
  | .storage _ => ⟨503, "storage_unavailable", "Zone storage is unavailable; no change was activated"⟩

/-- `ifMatch`. -/
def ifMatch (values : List Str) (current : UInt32) : Except HttpFailure UInt32 :=
  let value := trimSpaces (values.headD [])
  if value = [] then
    .error ⟨428, "precondition_required", "Send If-Match with the current quoted zone revision"⟩
  else if values.length ≠ 1 ∨ byteLen value < 3 ∨ value.head? ≠ some '"' ∨ value.getLast? ≠ some '"' then
    .error ⟨400, "invalid_precondition", "If-Match requires one strong quoted revision"⟩
  else
    let quoted := value.tail.dropLast
    match parseUint 32 quoted with
    | none => .error ⟨400, "invalid_precondition", "Invalid zone revision"⟩
    | some n =>
      if n = 0 ∨ decimal n ≠ quoted then .error ⟨400, "invalid_precondition", "Invalid zone revision"⟩
      else if UInt32.ofNat n ≠ current then
        .error ⟨412, "revision_conflict", "Zone changed; reload before retrying"⟩
      else .ok (UInt32.ofNat n)

/-- `recordIndex`. -/
def recordIndex (recordID : Str) (z : Zone) : Except HttpFailure ℕ := do
  let id ← zoneID recordID
  match z.records.findIdx? (fun r => r.id = id) with
  | some i => .ok i
  | none => .error (zoneFailure .notFound)

/-! ### Handlers -/

/-- What a handler asks the service. -/
inductive ZoneOp where
  | get (id : ℤ)
  | update (id : ℤ) (revision : UInt32) (z : Zone)

abbrev Handler := Prog ZoneOp (fun _ => Except Err Zone) (Except HttpFailure ZoneReply)

/-- `zoneResponse`. -/
def zoneResponse (status : ℕ) (z : Zone) : ZoneReply where
  status := status
  etag := ['"'] ++ decimal z.revision.toNat ++ ['"']
  zone := z

/-- The handlers of edits: `currentZone`, then the checks and the new zone, then `Update`. -/
def handle (id : Str) (prepare : Zone → Except HttpFailure (UInt32 × Zone)) (respond : Zone → ZoneReply) : Handler :=
  match zoneID id with
  | .error e => .done (.error e)
  | .ok id => do
    let r : Except Err Zone ← Prog.ask (ZoneOp.get id)
    match r with
    | .error e => return .error (zoneFailure e)
    | .ok z =>
      match prepare z with
      | .error e => return .error e
      | .ok (revision, z') =>
        let r : Except Err Zone ← Prog.ask (ZoneOp.update z.id revision z')
        match r with
        | .error e => return .error (zoneFailure e)
        | .ok saved => return .ok (respond saved)

/-- `PUT /api/v1/zones/{id}` -/
def preparePutZone (values : List Str) (input : Except HttpFailure ZoneInput) (z : Zone) :
    Except HttpFailure (UInt32 × Zone) := do
  let revision ← ifMatch values z.revision
  let input ← input
  return (revision, input.zone)

/-- `POST /api/v1/zones/{id}/records` -/
def preparePostRecord (values : List Str) (record : Except HttpFailure Record) (z : Zone) :
    Except HttpFailure (UInt32 × Zone) := do
  let revision ← ifMatch values z.revision
  let record ← record
  if record.id ≠ 0 then throw ⟨400, "invalid_record", "Record IDs are assigned by the server"⟩
  return (revision, { z with records := z.records ++ [record] })

/-- `PUT /api/v1/zones/{id}/records/{recordID}` -/
def preparePutRecord (values : List Str) (recordID : Str) (record : Except HttpFailure Record) (z : Zone) :
    Except HttpFailure (UInt32 × Zone) := do
  let i ← recordIndex recordID z
  let revision ← ifMatch values z.revision
  let record ← record
  if record.id ≠ 0 then throw ⟨400, "invalid_record", "Record ID is selected by the URL"⟩
  return (revision, { z with records := z.records.modify i (fun old => { record with id := old.id }) })

/-- `DELETE /api/v1/zones/{id}/records/{recordID}` -/
def prepareDeleteRecord (values : List Str) (recordID : Str) (z : Zone) : Except HttpFailure (UInt32 × Zone) := do
  let i ← recordIndex recordID z
  let revision ← ifMatch values z.revision
  return (revision, { z with records := z.records.eraseIdx i })

def EditRequest.prepare (r : EditRequest) : Zone → Except HttpFailure (UInt32 × Zone) :=
  match r.edit with
  | .putZone input => preparePutZone r.ifMatch input
  | .postRecord record => preparePostRecord r.ifMatch record
  | .putRecord recordID record => preparePutRecord r.ifMatch recordID record
  | .deleteRecord recordID => prepareDeleteRecord r.ifMatch recordID

/-- The path of the record that a `POST` has added. -/
def recordLocation (z : Zone) : Option Str :=
  z.records.getLast?.map fun r =>
    "/api/v1/zones/".toList ++ decimal z.id.toNat ++ "/records/".toList ++ decimal r.id.toNat

def EditRequest.respond (r : EditRequest) (saved : Zone) : ZoneReply :=
  match r.edit with
  | .postRecord _ => { zoneResponse 201 saved with location := recordLocation saved }
  | _ => zoneResponse 200 saved

def EditRequest.handler (r : EditRequest) : Handler := handle r.id r.prepare r.respond

/-- What the outside gives a handler: the snapshot that `Get` loads, and a failure of the repository. -/
structure Moment where
  read : Snapshot
  failure : Option Err := none

/-- `Get`. -/
def Snapshot.get (s : Snapshot) (id : ℤ) : Except Err Zone :=
  match s.byID.lookup id with
  | some z => .ok z
  | none => .error .notFound

/-- One step of a handler. `Get` reads what was published then; `Update` holds the mutex until it is done. -/
def serve (lib : Miekg) : (op : ZoneOp) → Moment → Store → Option (Except Err Zone × Store)
  | .get id, x, st => some (x.read.get id, st)
  | .update id revision z, x, st => (update lib id revision z).exec act x.failure st

/-! ### What an edit keeps -/

/-- The fields of a zone that no request of the handlers can express. -/
structure Metadata where
  zoneType : Str := []
  primaryAddress : Str := []
  transferTSIGKey : Str := []
  transferInterval : ℤ := 0
  lastTransferAt : Option ℕ := none
  nextRefreshAt : Option ℕ := none
  lastTransferSerial : UInt32 := 0
  deriving DecidableEq

def Zone.metadata (z : Zone) : Metadata where
  zoneType := z.zoneType
  primaryAddress := z.primaryAddress
  transferTSIGKey := z.transferTSIGKey
  transferInterval := z.transferInterval
  lastTransferAt := z.lastTransferAt
  nextRefreshAt := z.nextRefreshAt
  lastTransferSerial := z.lastTransferSerial

/-- The edit is one of a record. -/
def ZoneEdit.ofRecord : ZoneEdit → Bool
  | .putZone _ => false
  | _ => true

/-- An edit of a record keeps the other records, in their places. -/
def ZoneEdit.KeepsOthers : ZoneEdit → Zone → Zone → Prop
  | .putZone _, _, _ => True
  | .postRecord _, old, new => ∃ r, new.records = old.records ++ [r] ∧ r.id ∉ old.records.map Record.id
  | .putRecord recordID _, old, new => ∃ (i : ℕ) (o r : Record), zoneID recordID = .ok o.id ∧ old.records[i]? = some o ∧
      r.id = o.id ∧ new.records = old.records.set i r
  | .deleteRecord recordID, old, new => ∃ (i : ℕ) (o : Record), zoneID recordID = .ok o.id ∧ old.records[i]? = some o ∧
      new.records = old.records.eraseIdx i

/-- What an edit must keep. -/
structure ZoneEdit.Preserves (e : ZoneEdit) (old new : Zone) : Prop where
  metadata : new.metadata = old.metadata
  others : e.KeepsOthers old new
  revision : new.revision.toNat = old.revision.toNat + 1

section

variable {lib : Miekg} {st st' : Store} {z saved : Zone}

/-! ### Records through an update -/

/-- `insertRecords` only assigns IDs. -/
theorem Repo.insertRecords_kept {taken : List ℤ} {seq seq' : ℤ} {rs out : List Record}
    (h : insertRecords taken seq rs = .ok (out, seq')) : List.Forall₂ (fun r o => r.id ≠ 0 → o = r) rs out := by
  induction rs generalizing taken seq out with
  | nil =>
    cases h
    exact .nil
  | cons r rs ih =>
    simp only [insertRecords] at h
    generalize hid : (if r.id ≠ 0 then r.id else seq + 1) = id at h
    split at h
    · cases h
    split at h
    · cases h
    · rename_i rest seq₁ hrest
      cases h
      refine .cons (fun hne => ?_) (ih hrest)
      rw [← hid, if_pos hne]

theorem Repo.saveZone_kept {db db' : Repo} {expected : UInt32} (h : db.saveZone z expected = .ok (saved, db')) :
    List.Forall₂ (fun r o => r.id ≠ 0 → o = r) z.records saved.records := by
  simp only [saveZone] at h
  split_ifs at h
  all_goals
    split at h
    · cases h
    · rename_i hinsert
      cases h
      exact insertRecords_kept hinsert

/-- The records that are saved: each in normal form, and under its ID if it has one. -/
def Kept (name : Str) (r saved : Record) : Prop := r.id ≠ 0 → normalizeRecord name r = .ok saved

theorem forall₂_kept {name : Str} {rs normal out : List Record}
    (hnormal : List.Forall₂ (fun r n => normalizeRecord name r = .ok n) rs normal)
    (hout : List.Forall₂ (fun r o => r.id ≠ 0 → o = r) normal out) : List.Forall₂ (Kept name) rs out := by
  induction hnormal generalizing out with
  | nil =>
    cases hout
    exact .nil
  | cons hr _ ih =>
    cases hout with
    | cons ho hrest =>
      refine .cons (fun hne => ?_) (ih hrest)
      rw [ho (by rw [normalizeRecord_id hr]; exact hne), hr]

/-- **The records that an update saves.** -/
theorem wp_update_kept (h : Consistent lib st) (id : ℤ) (revision : UInt32) (z : Zone) :
    (update lib id revision z).wp act
      (fun r _ => ∀ saved, r = .ok saved → ∃ name, domain z.name = .ok name ∧ List.Forall₂ (Kept name) z.records saved.records)
      st := by
  simp only [update, Prog.ask_bind, Prog.pure_eq]
  rw [Prog.wp_call]
  rintro _ _ _ ⟨⟩
  split
  · rintro _ ⟨⟩
  · split_ifs
    · rintro _ ⟨⟩
    · rintro _ ⟨⟩
    · refine Prog.wp_mono (wp_save lib st _ revision) ?_
      rintro r st' (⟨e, rfl, rfl⟩ | ⟨next, saved, db', hc, hsave, rfl, rfl⟩)
      · rintro _ ⟨⟩
      · rintro _ ⟨⟩
        obtain ⟨z', hz', -, hlookup, -⟩ := compiled_of_save h hc
        rw [hlookup, Option.getD_some] at hsave
        obtain ⟨name, hname, _, _, _, _, _, records, hrecords, rfl⟩ := normalize_eq_ok.1 hz'
        exact ⟨name, hname, forall₂_kept (forall₂_of_mapM_ok hrecords) (Repo.saveZone_kept hsave)⟩

/-- Where all records but one are fixed, only that one changes. -/
theorem eq_set_of_fixed {α : Type} {R : α → α → Prop} {xs ys : List α} (h : List.Forall₂ R xs ys) {i : ℕ} {y : α}
    (hy : ys[i]? = some y) (hfixed : ∀ j x, j ≠ i → xs[j]? = some x → ∀ y, R x y → y = x) : ys = xs.set i y := by
  obtain ⟨hlen, hall⟩ := List.forall₂_iff_get.1 h
  refine List.ext_getElem? fun j => ?_
  by_cases hj : j = i
  · subst hj
    have hlt := (List.getElem?_eq_some_iff.1 hy).1
    rw [hy, List.getElem?_set_self (by omega)]
  · rw [List.getElem?_set_ne (Ne.symm hj)]
    by_cases hlt : j < xs.length
    · have hx : xs[j]? = some xs[j] := List.getElem?_eq_getElem hlt
      rw [hx, List.getElem?_eq_getElem (by omega)]
      exact congrArg some (hfixed j _ hj hx _ (hall j hlt (by omega)))
    · rw [List.getElem?_eq_none (by omega), List.getElem?_eq_none (by omega)]

theorem eq_of_fixed {α : Type} {R : α → α → Prop} {xs ys : List α} (h : List.Forall₂ R xs ys)
    (hfixed : ∀ x ∈ xs, ∀ y, R x y → y = x) : ys = xs := by
  induction h with
  | nil => rfl
  | cons hr _ ih =>
    rw [hfixed _ List.mem_cons_self _ hr, ih fun x hx => hfixed x (List.mem_cons_of_mem _ hx)]

/-! ### The checks of a handler -/

/-- `ifMatch` only lets the revision through that the zone has. -/
theorem ifMatch_ok {values : List Str} {current revision : UInt32} (h : ifMatch values current = .ok revision) :
    revision = current := by
  simp only [ifMatch] at h
  split at h
  · cases h
  split at h
  · cases h
  split at h
  · cases h
  split at h
  · cases h
  split at h
  · cases h
  · rename_i heq
    cases h
    exact not_not.1 heq

theorem recordIndex_ok {recordID : Str} {i : ℕ} (h : recordIndex recordID z = .ok i) :
    ∃ o, z.records[i]? = some o ∧ zoneID recordID = .ok o.id := by
  unfold recordIndex at h
  rw [bind_eq_ok] at h
  obtain ⟨id, hid, h⟩ := h
  split at h
  · rename_i hfind
    cases h
    obtain ⟨hlt, hi, -⟩ := List.findIdx?_eq_some_iff_getElem.1 hfind
    exact ⟨z.records[i], List.getElem?_eq_getElem hlt, by rw [hid, of_decide_eq_true hi]⟩
  · cases h

/-- The zone that a request asks for. -/
inductive Prepared (z : Zone) : ZoneEdit → Zone → Prop
  | putZone {input : ZoneInput} : Prepared z (.putZone (.ok input)) input.zone
  | postRecord {record : Record} : Prepared z (.postRecord (.ok record)) { z with records := z.records ++ [record] }
  | putRecord {recordID : Str} {record o : Record} {i : ℕ} (hid : zoneID recordID = .ok o.id) (ho : z.records[i]? = some o) :
      Prepared z (.putRecord recordID (.ok record)) { z with records := z.records.set i { record with id := o.id } }
  | deleteRecord {recordID : Str} {o : Record} {i : ℕ} (hid : zoneID recordID = .ok o.id) (ho : z.records[i]? = some o) :
      Prepared z (.deleteRecord recordID) { z with records := z.records.eraseIdx i }

theorem prepare_ok {r : EditRequest} {revision : UInt32} {z' : Zone} (h : r.prepare z = .ok (revision, z')) :
    revision = z.revision ∧ Prepared z r.edit z' := by
  obtain ⟨id, values, edit⟩ := r
  cases edit with
  | putZone input =>
    simp only [EditRequest.prepare, preparePutZone, bind_eq_ok, pure_eq_ok] at h
    obtain ⟨revision, hmatch, input, rfl, heq⟩ := h
    cases heq
    exact ⟨ifMatch_ok hmatch, .putZone⟩
  | postRecord record =>
    simp only [EditRequest.prepare, preparePostRecord, bind_eq_ok, guard_eq_ok, pure_eq_ok] at h
    obtain ⟨revision, hmatch, record, rfl, -, heq⟩ := h
    cases heq
    exact ⟨ifMatch_ok hmatch, .postRecord⟩
  | putRecord recordID record =>
    simp only [EditRequest.prepare, preparePutRecord, bind_eq_ok, guard_eq_ok, pure_eq_ok] at h
    obtain ⟨i, hi, revision, hmatch, record, rfl, -, heq⟩ := h
    cases heq
    obtain ⟨o, ho, hid⟩ := recordIndex_ok hi
    refine ⟨ifMatch_ok hmatch, ?_⟩
    rw [List.modify_eq_set_getElem?, ho]
    exact .putRecord hid ho
  | deleteRecord recordID =>
    simp only [EditRequest.prepare, prepareDeleteRecord, bind_eq_ok, pure_eq_ok] at h
    obtain ⟨i, hi, revision, hmatch, heq⟩ := h
    cases heq
    obtain ⟨o, ho, hid⟩ := recordIndex_ok hi
    exact ⟨ifMatch_ok hmatch, .deleteRecord hid ho⟩

/-- **A handler that succeeds** has read the zone, prepared the request and made the update. -/
theorem exec_handler {r : EditRequest} {x : Moment} {reply : ZoneReply}
    (h : r.handler.exec (serve lib) x st = some (.ok reply, st')) :
    ∃ id z z' saved, zoneID r.id = .ok id ∧ x.read.byID.lookup id = some z ∧ Prepared z r.edit z' ∧
      (update lib z.id z.revision z').exec act x.failure st = some (.ok saved, st') ∧ reply = r.respond saved := by
  unfold EditRequest.handler handle at h
  split at h
  · cases h
  rename_i id hid
  rw [Prog.ask_bind, Prog.exec_call, serve, Option.bind_some, Snapshot.get] at h
  dsimp only at h
  cases hz : x.read.byID.lookup id with
  | none =>
    rw [hz] at h
    cases h
  | some z =>
    rw [hz] at h
    dsimp only at h
    split at h
    · cases h
    rename_i revision z' hprepare
    obtain ⟨rfl, hprepared⟩ := prepare_ok hprepare
    rw [Prog.ask_bind, Prog.exec_call, serve] at h
    obtain ⟨⟨result, st₁⟩, hupdate, h⟩ := Option.bind_eq_some_iff.1 h
    cases result with
    | error e => cases h
    | ok saved =>
      cases h
      exact ⟨id, z, z', saved, hid, hz, hprepared, hupdate, rfl⟩

/-! ### What is kept -/

theorem Consistent.normal_of_lookup (h : Consistent lib st) {i : ℤ} (hz : st.published.byID.lookup i = some z) :
    NormalZone z :=
  (Repo.row_alike z).normal (h.sound.normal _ (h.row_mem hz).2)

/-- The records of a published zone have IDs and are in normal form. -/
theorem Consistent.record_fixed (h : Consistent lib st) {i : ℤ} (hz : st.published.byID.lookup i = some z) {r : Record}
    (hr : r ∈ z.records) : r.id ≠ 0 ∧ ∀ y, Kept z.name r y → y = r := by
  have hpos := (h.sound.records _ (h.row_mem hz).2 r ((Repo.row_perm z).mem_iff.2 hr)).1
  refine ⟨by omega, fun y hy => ?_⟩
  obtain ⟨name, hname, _, _, _, _, _, records, hrecords, hsame⟩ := normalize_eq_ok.1 (h.normal_of_lookup hz)
  have hrow : normalizeRecord z.name r = .ok r := by
    obtain rfl : name = z.name := by rw [← hsame]
    obtain rfl : records = z.records := by rw [← hsame]
    have hall := List.forall₂_iff_get.1 (forall₂_of_mapM_ok hrecords)
    obtain ⟨j, hj, rfl⟩ := List.mem_iff_getElem.1 hr
    exact hall.2 j hj hj
  exact Except.ok.inj ((hy (by omega)).symm.trans hrow)

/-- The IDs of the records of a published zone differ. -/
theorem Consistent.record_ids (h : Consistent lib st) {i : ℤ} (hz : st.published.byID.lookup i = some z) :
    (z.records.map Record.id).Nodup :=
  ((Repo.row_perm z).map Record.id).nodup_iff.1 (h.sound.distinct _ (h.row_mem hz).2)

/-- The other records through the update that a request asks for. -/
theorem Prepared.keepsOthers {e : ZoneEdit} {z' : Zone} (hp : Prepared z e z')
    (hfixed : ∀ r ∈ z.records, r.id ≠ 0 ∧ ∀ y, Kept z.name r y → y = r) (hids : (saved.records.map Record.id).Nodup)
    (hkept : z'.name = z.name → List.Forall₂ (Kept z.name) z'.records saved.records) : e.KeepsOthers z saved := by
  cases hp with
  | putZone => trivial
  | @postRecord record =>
    have hkept := hkept rfl
    have hlen := hkept.length_eq
    obtain ⟨y, hy⟩ : ∃ y, saved.records[z.records.length]? = some y :=
      ⟨_, List.getElem?_eq_getElem (by rw [← hlen]; simp)⟩
    have hset : saved.records = z.records ++ [y] := by
      rw [eq_set_of_fixed hkept hy ?_, List.set_append_right _ _ (le_refl _), Nat.sub_self]
      · rfl
      · intro j x hj hx
        refine (hfixed x ?_).2
        rw [List.getElem?_append] at hx
        split at hx
        · exact List.mem_of_getElem? hx
        · rename_i hlt
          rw [List.getElem?_eq_none (by simp; omega)] at hx
          cases hx
    refine ⟨y, hset, fun hmem => ?_⟩
    rw [hset, List.map_append, List.nodup_append] at hids
    exact hids.2.2 y.id hmem y.id (by simp) rfl
  | @putRecord recordID record o i hid ho =>
    have hkept := hkept rfl
    obtain ⟨hlen, hall⟩ := List.forall₂_iff_get.1 hkept
    have hlt := (List.getElem?_eq_some_iff.1 ho).1
    have hlt' : i < saved.records.length := by
      rw [← hlen, List.length_set]
      exact hlt
    have hy : saved.records[i]? = some saved.records[i] := List.getElem?_eq_getElem hlt'
    refine ⟨i, o, saved.records[i], hid, ho, ?_, ?_⟩
    · have hnorm := hall i (by rw [List.length_set]; exact hlt) hlt'
      rw [List.get_eq_getElem, List.getElem_set_self] at hnorm
      have hrecord : normalizeRecord z.name { record with id := o.id } = .ok saved.records[i] :=
        hnorm (hfixed o (List.mem_of_getElem? ho)).1
      have hid := normalizeRecord_id hrecord
      exact hid
    · have hset := eq_set_of_fixed hkept hy fun j x hj hx => by
        rw [List.getElem?_set_ne (Ne.symm hj)] at hx
        exact (hfixed x (List.mem_of_getElem? hx)).2
      rw [List.set_set] at hset
      exact hset
  | @deleteRecord recordID o i hid ho =>
    refine ⟨i, o, hid, ho, ?_⟩
    exact eq_of_fixed (hkept rfl) fun x hx => (hfixed x (List.mem_of_mem_eraseIdx hx)).2

/-- An edit of a record starts from the metadata of the zone, one of the zone from none. -/
theorem Prepared.metadata {e : ZoneEdit} {z' : Zone} (hp : Prepared z e z') :
    z'.metadata = z.metadata ↔ e.ofRecord = true ∨ z.metadata = {} := by
  cases hp with
  | putZone => exact ⟨fun h => Or.inr h.symm, fun h => (h.resolve_left Bool.false_ne_true).symm⟩
  | postRecord => exact iff_of_true rfl (Or.inl rfl)
  | putRecord => exact iff_of_true rfl (Or.inl rfl)
  | deleteRecord => exact iff_of_true rfl (Or.inl rfl)

/-- **The update that a request asks for.** -/
theorem Prepared.preserves_iff {e : ZoneEdit} {z' : Zone} (hp : Prepared z e z') (h : Consistent lib st)
    (hz : st.published.byID.lookup z.id = some z)
    (hstored : Stored lib st { z' with id := z.id, revision := z.revision + 1 } saved st') (hmax : z.revision ≠ maxUint32)
    {name : Str} (hname : domain z'.name = .ok name)
    (hkept : List.Forall₂ (Kept name) z'.records saved.records) :
    e.Preserves z saved ↔ e.ofRecord = true ∨ z.metadata = {} := by
  have hlookup : st'.published.byID.lookup saved.id = some saved := by rw [hstored.lookup, if_pos rfl]
  have hmetadata : saved.metadata = z'.metadata := by
    obtain ⟨_, hz', heq, -⟩ := hstored.normal
    obtain ⟨_, _, _, _, _, _, _, _, _, rfl⟩ := normalize_eq_ok.1 hz'
    rw [heq]
    rfl
  have hothers : e.KeepsOthers z saved := by
    refine hp.keepsOthers (fun r hr => h.record_fixed hz hr) (hstored.consistent.record_ids hlookup) fun hsame => ?_
    obtain ⟨name', hname', _, _, _, _, _, _, _, heq⟩ := normalize_eq_ok.1 (h.normal_of_lookup hz)
    have hnames : z.name = name' := by rw [← heq]
    rw [hsame, hname', ← hnames] at hname
    rwa [Except.ok.inj hname]
  rw [← hp.metadata, ← hmetadata]
  exact ⟨fun hpreserves => hpreserves.metadata,
    fun hsame => ⟨hsame, hothers, by rw [hstored.revision]; exact toNat_next hmax⟩⟩

/-- **What an edit preserves.** In every run of the manager, whatever happens between the read of a handler and its update:
when the edit is accepted, it is one of the zone that is stored at that time. It keeps the other records and counts one
revision, and it keeps the fields that the request cannot express exactly when it is an edit of a record or the zone has
none of them. -/
theorem edit_preserves_iff {db : Repo} {s : Snapshot} (hdb : db.Sound) (hstart : start lib db = .ok s) {es es' : List Event}
    {w₀ w₁ : Manager} (hread : run (Manager.step lib) { service := { shared := ⟨s, db, 0⟩ } } es = some w₀)
    (hmeanwhile : run (Manager.step lib) w₀ es' = some w₁) (hidle : w₁.service.busy = none) {r : EditRequest}
    {failure : Option Err} {reply : ZoneReply} {st' : Store}
    (hexec : r.handler.exec (serve lib) ⟨w₀.service.shared.published, failure⟩ w₁.service.shared = some (.ok reply, st')) :
    ∃ old new, zoneID r.id = .ok old.id ∧ w₁.service.shared.published.byID.lookup old.id = some old ∧
      st'.published.byID.lookup old.id = some new ∧ st'.repo.zones.find? (fun z => z.id = old.id) = some (Repo.row new) ∧
      reply = r.respond new ∧ (r.edit.Preserves old new ↔ r.edit.ofRecord = true ∨ old.metadata = {}) := by
  have hw₀ := (run_manages (start_manages hdb hstart) hread).1
  obtain ⟨hw₁, honward⟩ := run_manages hw₀ hmeanwhile
  have h := hw₁.consistent hidle
  obtain ⟨id, z, z', new, hid, hz, hprepared, hupdate, rfl⟩ := exec_handler hexec
  obtain rfl : z.id = id := hw₀.serves.keyed id z hz
  have hknown : Known z w₁.service.shared := honward.known z (Or.inl hz)
  have hout : Outcome lib w₁.service.shared (.update z.id z.revision z') (.ok new) st' :=
    Prog.exec_of_wp (wp_update h z.id z.revision z') hupdate
  obtain ⟨name, hname, hkept⟩ := Prog.exec_of_wp (wp_update_kept h z.id z.revision z') hupdate new rfl
  rcases hout with ⟨e, he, -⟩ | ⟨_, heq, he⟩
  · cases he
  cases heq
  cases he with
  | update hold hrev hmax hstored hid' hseq =>
    cases hknown.eq h hold hrev
    refine ⟨z, new, hid, hold, ?_, ?_, rfl, hprepared.preserves_iff h hold hstored hmax hname hkept⟩
    · rw [hstored.lookup, if_pos hid'.symm]
    · rw [hstored.find, if_pos hid'.symm]

end

namespace Sample

/-- A host is added to the zone. -/
def addsHost : EditRequest where
  id := "1".toList
  ifMatch := ["\"1\"".toList]
  edit := .postRecord (.ok ⟨0, "www".toList, "a".toList, 300, "192.0.2.1".toList, 0⟩)

/-- The contact of the zone is changed. -/
def changesContact : EditRequest where
  id := "1".toList
  ifMatch := ["\"1\"".toList]
  edit := .putZone (.ok ⟨"lan".toList, [], "admin.lan".toList, []⟩)

end Sample

open Velora.Zones.Sample in
theorem edit_preserves_host : ∃ w reply st' new, run (Manager.step lib) { service := { shared := ⟨{}, {}, 0⟩ } } created = some w ∧
    addsHost.handler.exec (serve lib) ⟨w.service.shared.published, none⟩ w.service.shared = some (.ok reply, st') ∧
    st'.published.byID.lookup 1 = some new ∧ addsHost.edit.Preserves published new := by
  have htest : (run (Manager.step lib) { service := { shared := ⟨{}, {}, 0⟩ } } created).any (fun w =>
      w.service.busy.isNone && decide (w.service.shared.published.byID.lookup 1 = some published) &&
        (addsHost.handler.exec (serve lib) ⟨w.service.shared.published, none⟩ w.service.shared).any (fun r =>
          r.1.toOption.isSome)) = true := by
    decide +kernel
  obtain ⟨w, hw, hstate⟩ := (Option.any_eq_true _ _).1 htest
  simp only [Bool.and_eq_true, Option.isNone_iff_eq_none, decide_eq_true_eq] at hstate
  obtain ⟨⟨hidle, hpublished⟩, hend⟩ := hstate
  obtain ⟨⟨result, st'⟩, hexec, hok⟩ := (Option.any_eq_true _ _).1 hend
  obtain ⟨reply, hreply⟩ := Option.isSome_iff_exists.1 hok
  obtain rfl : result = .ok reply := eq_ok_of_toOption hreply
  have hstart : start lib {} = .ok {} := rfl
  obtain ⟨old, new, hid, hold, hnew, -, -, hiff⟩ := edit_preserves_iff Repo.sound_empty hstart hw (run_nil w) hidle hexec
  have hone : old.id = 1 := (Except.ok.inj hid).symm
  rw [hone] at hold hnew
  cases hold.symm.trans hpublished
  exact ⟨w, reply, st', new, hw, hexec, hnew, hiff.2 (Or.inl rfl)⟩

open Velora.Zones.Sample in
/-- To change the contact of a secondary zone makes it no secondary zone any more. -/
theorem edit_loses_metadata : ∃ w reply st', run (Manager.step lib) { service := { shared := ⟨{}, {}, 0⟩ } } created = some w ∧
    w.service.busy = none ∧ w.service.shared.published.byID.lookup 1 = some published ∧
    changesContact.handler.exec (serve lib) ⟨w.service.shared.published, none⟩ w.service.shared = some (.ok reply, st') ∧
    ∀ new, st'.published.byID.lookup 1 = some new → published.zoneType = "secondary".toList ∧ new.zoneType = [] ∧
      ¬ changesContact.edit.Preserves published new := by
  have htest : (run (Manager.step lib) { service := { shared := ⟨{}, {}, 0⟩ } } created).any (fun w =>
      w.service.busy.isNone && decide (w.service.shared.published.byID.lookup 1 = some published) &&
        (changesContact.handler.exec (serve lib) ⟨w.service.shared.published, none⟩ w.service.shared).any (fun r =>
          r.1.toOption.isSome && decide (∀ new ∈ r.2.published.byID.lookup 1, new.metadata = {}))) = true := by
    decide +kernel
  obtain ⟨w, hw, hstate⟩ := (Option.any_eq_true _ _).1 htest
  simp only [Bool.and_eq_true, Option.isNone_iff_eq_none, decide_eq_true_eq] at hstate
  obtain ⟨⟨hidle, hpublished⟩, hend⟩ := hstate
  obtain ⟨⟨result, st'⟩, hexec, hresult⟩ := (Option.any_eq_true _ _).1 hend
  simp only [Bool.and_eq_true, decide_eq_true_eq] at hresult
  obtain ⟨reply, hreply⟩ := Option.isSome_iff_exists.1 hresult.1
  obtain rfl : result = .ok reply := eq_ok_of_toOption hreply
  refine ⟨w, reply, st', hw, hidle, hpublished, hexec, fun new hnew => ?_⟩
  have hnone : new.metadata = {} := hresult.2 new hnew
  refine ⟨rfl, congrArg Metadata.zoneType hnone, fun hpreserves => ?_⟩
  have hsame := hpreserves.metadata
  rw [hnone] at hsame
  cases hsame

end Velora.Zones
