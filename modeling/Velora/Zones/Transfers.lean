import Velora.Zones.Agree
import Velora.Zones.Secondary

/-!
# Transfers and edits

A transfer works on a copy of the zone. While other calls change the zone, the copy is what is published or the zone has
passed its revision (`Known`), also in the middle of a call; so the one update that a transfer makes is refused, or it
replaces the very zone that was copied. What it writes are the records of a complete full transfer with its serial number,
or those of the copy (`Writes`). Together: `transfers_safe`.
-/

namespace Velora.Zones

open Velora.Lib Velora.Lib.Text Velora.Lib.Loops Velora.Wire Velora.Dns

section

variable {lib : Miekg}

/-! ### What is written -/

variable (lib) in
/-- The full transfer was complete: no errors, an SOA, and records that the service can hold. -/
structure Answer.Completes (a : Answer) (rrs : List RR) (soa : SOA) : Prop where
  err : a.err = none
  result : a.result = some ⟨rrs, some soa, []⟩
  imported : ∀ rr ∈ rrs, dropped rr = false → ∃ r, importRecord lib rr = .ok r

variable (lib) in
/-- The transfer has got a complete full transfer. -/
def Heard.Complete (h : Heard) : Prop := ∃ a rrs soa, h.axfr = some a ∧ a.Completes lib rrs soa

theorem transferRecords_ok {rrs : List RR} {records : List Record} (h : transferRecords lib rrs = .ok records) :
    (∀ rr ∈ rrs, dropped rr = false → ∃ r, importRecord lib rr = .ok r) ∧
      List.Forall₂ (fun rr r => ∃ r', importRecord lib rr = .ok r' ∧ r'.capped = r)
        (rrs.filter (fun rr => !dropped rr)) records := by
  induction rrs generalizing records with
  | nil =>
    cases h
    exact ⟨by simp, .nil⟩
  | cons rr rrs ih =>
    rw [transferRecords] at h
    split at h
    · rename_i hdrop
      obtain ⟨himported, hrel⟩ := ih h
      rw [List.filter_cons_of_neg (by simp [hdrop])]
      refine ⟨fun rr' hmem hkeep => ?_, hrel⟩
      rcases List.mem_cons.1 hmem with rfl | hmem
      · rw [hdrop] at hkeep
        cases hkeep
      · exact himported rr' hmem hkeep
    · rename_i hdrop
      simp only [bind_eq_ok, pure_eq_ok] at h
      obtain ⟨r, hr, rs, hrs, rfl⟩ := h
      obtain ⟨himported, hrel⟩ := ih hrs
      rw [List.filter_cons_of_pos (by simp [hdrop])]
      refine ⟨fun rr' hmem hkeep => ?_, .cons ⟨r, hr, rfl⟩ hrel⟩
      rcases List.mem_cons.1 hmem with rfl | hmem
      · exact ⟨r, hr⟩
      · exact himported rr' hmem hkeep

theorem transferRecords_complete {rrs : List RR} (h : ∀ rr ∈ rrs, dropped rr = false → ∃ r, importRecord lib rr = .ok r) :
    ∃ records, transferRecords lib rrs = .ok records := by
  induction rrs with
  | nil => exact ⟨[], rfl⟩
  | cons rr rrs ih =>
    obtain ⟨records, hrecords⟩ := ih fun rr' hmem => h rr' (List.mem_cons_of_mem rr hmem)
    rw [transferRecords]
    split
    · exact ⟨records, hrecords⟩
    · rename_i hdrop
      obtain ⟨r, hr⟩ := h rr List.mem_cons_self (by simpa using hdrop)
      exact ⟨r.capped :: records, by rw [hr, hrecords]; rfl⟩

variable (lib) in
/-- What a transfer with this copy writes after these answers. -/
structure Writes (zone : Zone) (h : Heard) (z : Zone) : Prop where
  name : z.name = zone.name
  complete : ∀ a rrs soa, h.axfr = some a → a.Completes lib rrs soa →
    transferRecords lib rrs = .ok z.records ∧ z.lastTransferSerial = soa.serial
  incomplete : ¬ h.Complete lib → z.records = zone.records ∧ z.lastTransferSerial = zone.lastTransferSerial

/-- The rest of a transfer only makes the update it should make. -/
def keepsTo (lib : Miekg) (zone : Zone) : (op : TransferOp) → (TransferAns op → Heard → Prop) → Heard → Prop
  | .start _, Q, h => ∀ started, Q started h
  | .ixfr _ _ _ _, Q, h => ∀ a, Q a { h with ixfr := some a }
  | .axfr _ _ _, Q, h => ∀ a, Q a { h with axfr := some a }
  | .now, Q, h => ∀ t, Q t h
  | .update id revision z, Q, h => (id = zone.id ∧ revision = zone.revision ∧ Writes lib zone h z) ∧ Q () h
  | .await, Q, h => Q () h
  | .stop _, Q, h => Q () h

variable {Q : Unit → Heard → Prop}

theorem updateTransferState_obeys (hQ : ∀ u h, Q u h) {zone : Zone} {h : Heard} {success : Bool} {soa : Option SOA}
    {records : List Record} (hwrites : ∀ z : Zone, z.name = zone.name →
      (z.records, z.lastTransferSerial) =
        (match soa with
          | none => (zone.records, zone.lastTransferSerial)
          | some soa => (records, soa.serial)) → Writes lib zone h z) :
    (updateTransferState zone success soa records).obeys (keepsTo lib zone) Q h := by
  rw [updateTransferState, Prog.ask_bind, Prog.obeys_call]
  intro now
  rw [Prog.ask_bind, Prog.obeys_call]
  cases soa with
  | none => exact ⟨⟨rfl, rfl, hwrites _ rfl rfl⟩, hQ () h⟩
  | some soa => exact ⟨⟨rfl, rfl, hwrites _ rfl rfl⟩, hQ () h⟩

theorem Writes.left {zone z : Zone} {h : Heard} (hname : z.name = zone.name)
    (hsame : (z.records, z.lastTransferSerial) = (zone.records, zone.lastTransferSerial)) (hno : ¬ h.Complete lib) :
    Writes lib zone h z where
  name := hname
  complete a rrs soa ha hc := absurd ⟨a, rrs, soa, ha, hc⟩ hno
  incomplete _ := by simpa using hsame

theorem concludeTransfer_obeys (hQ : ∀ u h, Q u h) {zone : Zone} {h : Heard} {a : Answer} (ha : h.axfr = some a) :
    (concludeTransfer lib zone a).obeys (keepsTo lib zone) Q h := by
  -- a transfer that is not complete
  have failed : (∀ rrs soa, ¬ a.Completes lib rrs soa) →
      (updateTransferState zone false none []).obeys (keepsTo lib zone) Q h := by
    intro hno
    refine updateTransferState_obeys hQ fun z hname hsame => Writes.left hname hsame ?_
    rintro ⟨a', rrs, soa, ha', hc⟩
    cases ha.symm.trans ha'
    exact hno rrs soa hc
  rw [concludeTransfer]
  split
  · rename_i herr
    refine failed fun rrs soa hc => ?_
    rw [hc.err] at herr
    cases herr
  rename_i herr
  split
  · rename_i hresult
    refine failed fun rrs soa hc => ?_
    cases hresult.symm.trans hc.result
  rename_i result hresult
  split
  · rename_i herrors
    refine failed fun rrs soa hc => herrors ?_
    cases hresult.symm.trans hc.result
    rfl
  rename_i herrors
  split
  · rename_i records soa hrecords hsoa
    refine updateTransferState_obeys hQ fun z hname hsame => ⟨hname, fun a' rrs soa' ha' hc => ?_, fun hno => ?_⟩
    · cases ha.symm.trans ha'
      cases hresult.symm.trans hc.result
      cases hsoa
      rw [Prod.mk.injEq] at hsame
      rw [hrecords, hsame.1]
      exact ⟨rfl, hsame.2⟩
    · refine absurd ⟨a, result.records, soa, ha, by simpa using herr, ?_, (transferRecords_ok hrecords).1⟩ hno
      rw [hresult, ← hsoa, ← not_not.1 herrors]
  · rename_i hnot
    refine failed fun rrs soa hc => ?_
    cases hresult.symm.trans hc.result
    obtain ⟨records, hrecords⟩ := transferRecords_complete hc.imported
    exact hnot records soa hrecords rfl

theorem performTransfer_obeys (hQ : ∀ u h, Q u h) (zone : Zone) :
    (performTransfer lib zone).obeys (keepsTo lib zone) Q {} := by
  rw [performTransfer]
  split
  · rw [Prog.ask_bind, Prog.obeys_call]
    intro a
    split
    · rename_i soa hcurrent
      refine updateTransferState_obeys hQ fun z hname hsame => Writes.left hname ?_ ?_
      · -- the serial number is the one of the copy
        rw [hsame]
        rw [current] at hcurrent
        split at hcurrent
        · split at hcurrent
          · rw [Option.filter_eq_some_iff] at hcurrent
            simpa using hcurrent.2
          · cases hcurrent
        · cases hcurrent
      · rintro ⟨a', -, -, ha', -⟩
        cases ha'
    · rw [Prog.ask_bind, Prog.obeys_call]
      exact fun a => concludeTransfer_obeys hQ rfl
  · rw [Prog.ask_bind, Prog.obeys_call]
    exact fun a => concludeTransfer_obeys hQ rfl

theorem startTransfer_obeys (zone : Zone) :
    (startTransfer lib zone).obeys (keepsTo lib zone) (fun _ _ => True) {} := by
  rw [startTransfer, Prog.ask_bind, Prog.obeys_call]
  intro started
  split
  · rw [Prog.obeys_bind]
    exact performTransfer_obeys (fun _ _ => trivial) zone
  · trivial

/-! ### Copies -/

/-- A copy of a zone is what is published, or the zone has passed its revision. -/
def Known (z : Zone) (st : Store) : Prop := st.published.byID.lookup z.id = some z ∨ Passed st.repo z.id z.revision

/-- The published zones are under their IDs. -/
def Keyed (st : Store) : Prop := ∀ i z, st.published.byID.lookup i = some z → z.id = i

/-- All copies stay known. -/
structure Onward (st st' : Store) : Prop where
  keyed : Keyed st → Keyed st'
  known : ∀ z, Known z st → Known z st'

theorem Onward.refl (st : Store) : Onward st st := ⟨id, fun _ => id⟩

variable {st st' : Store} {c : Call} {z : Zone}

theorem Consistent.range (h : Consistent lib st) {i : ℤ} (hz : st.published.byID.lookup i = some z) :
    0 < i ∧ i ≤ st.repo.zoneSeq := by
  obtain ⟨hid, hrow⟩ := h.row_mem hz
  have hrange := h.sound.range _ hrow
  rw [← hid]
  exact hrange

/-- A zone that a call replaces has passed the revision it was published in. -/
theorem Effect.known (h : Consistent lib st) (he : Effect lib st c z st') {old : Zone}
    (hold : st.published.byID.lookup old.id = some old) : Known old st' := by
  have hrange := h.range hold
  cases he with
  | create hstored hid hseq =>
    refine .inl ?_
    rw [hstored.lookup, if_neg (by omega)]
    exact hold
  | update hfound hrev hmax hstored hid hseq =>
    by_cases hi : old.id = z.id
    · refine .inr ⟨by omega, fun x hx => ?_⟩
      rw [hstored.find, if_pos hi, Option.some.injEq] at hx
      rw [← hid, ← hi] at hfound
      cases hold.symm.trans hfound
      have hrow : x.revision = z.revision := hx ▸ rfl
      have hnext : z.revision = _ := hstored.revision
      rw [hrow, hnext, UInt32.lt_iff_toNat_lt, toNat_next hmax, hrev]
      exact Nat.lt_succ_self _
    · refine .inl ?_
      rw [hstored.lookup, if_neg hi]
      exact hold
  | delete hfound hrev hremoved hseq =>
    by_cases hi : old.id = ‹ℤ›
    · refine .inr ⟨by omega, fun x hx => ?_⟩
      rw [hremoved.find, if_pos hi] at hx
      cases hx
    · refine .inl ?_
      rw [hremoved.lookup, if_neg hi]
      exact hold

/-- The two steps in which a call has its effect. -/
theorem Effect.onward (h : Consistent lib st) (he : Effect lib st c z st') :
    Onward st { st with repo := st'.repo } ∧
      Onward { st with repo := st'.repo } { st with repo := st'.repo, published := st'.published } := by
  refine ⟨⟨id, fun x hx => hx.imp id (he.passed h _ _)⟩, ⟨fun _ i x hx => (he.consistent.row_mem hx).1, ?_⟩⟩
  rintro x (hx | hx)
  · exact he.known h hx
  · exact .inr hx

/-! ### The steps of a call -/

/-- The steps of a program from this state are onward. -/
abbrev Proceeds (p : Script) (st : Store) : Prop := p.relies act Eq Onward (fun _ => True) (fun _ _ => True) st

theorem proceeds_done (r : Except Err Zone) (st : Store) : Proceeds (.done r) st := fun _ _ => ⟨trivial, trivial⟩

theorem proceeds_load {k : Snapshot → Script} (h : Proceeds (k st.published) st) : Proceeds (.call .load k) st := by
  rintro _ rfl
  refine ⟨trivial, ?_⟩
  rintro _ _ _ ⟨⟩
  exact ⟨Onward.refl _, h⟩

/-- The end of a call: what is saved is published. -/
theorem proceeds_store {next : Snapshot} {r : Except Err Zone} (h : Onward st { st with published := next }) :
    Proceeds (.call (.store next) (fun _ => .call .invalidate (fun _ => .done r))) st := by
  rintro _ rfl
  refine ⟨trivial, ?_⟩
  rintro _ _ _ ⟨⟩
  refine ⟨h, ?_⟩
  rintro _ rfl
  refine ⟨trivial, ?_⟩
  rintro _ _ _ ⟨⟩
  exact ⟨⟨id, fun _ => id⟩, proceeds_done _ _⟩

/-- The end of a call that does not fail, where it has its effect. -/
theorem proceeds_effect (h : Consistent lib st) {repo : Repo} {next : Snapshot} {z : Zone}
    (hout : (Prog.call (.store next) (fun _ => .call .invalidate (fun _ => .done (.ok z))) : Script).wp act
      (Outcome lib st c) { st with repo := repo }) :
    Onward st { st with repo := repo } ∧
      Proceeds (.call (.store next) (fun _ => .call .invalidate (fun _ => .done (.ok z)))) { st with repo := repo } := by
  obtain ⟨e, he, -⟩ | ⟨x, -, heffect⟩ := hout none _ _ rfl none _ _ rfl
  · cases he
  · obtain ⟨hrepo, hpublished⟩ := heffect.onward h
    exact ⟨hrepo, proceeds_store hpublished⟩

/-- A save whose outcome is the one of a call. -/
theorem save_proceeds (h : Consistent lib st) {expected : UInt32} {x : Zone}
    (hout : (save lib x expected).wp act (Outcome lib st c) st) : Proceeds (save lib x expected) st := by
  simp only [save, Prog.ask_bind, Prog.pure_eq] at hout ⊢
  refine proceeds_load ?_
  have hrest := hout none _ _ rfl
  dsimp only at hrest ⊢
  split
  · exact proceeds_done _ _
  · rename_i next hnext
    rw [hnext] at hrest
    rintro _ rfl
    refine ⟨trivial, fun y a st₁ hact => ?_⟩
    have hrest := hrest y a st₁ hact
    cases y with
    | some e =>
      cases hact
      exact ⟨Onward.refl _, proceeds_done _ _⟩
    | none =>
      simp only [act] at hact
      split at hact
      · cases hact
        exact ⟨Onward.refl _, proceeds_done _ _⟩
      · rename_i saved repo hsave
        cases hact
        exact proceeds_effect h hrest

theorem body_proceeds (h : Consistent lib st) (c : Call) : Proceeds (c.body lib) st := by
  have hout := wp_body h c
  cases c with
  | create z =>
    simp only [Call.body, create] at hout ⊢
    split
    · exact proceeds_done _ _
    · rename_i hnew
      rw [if_neg hnew] at hout
      split
      · exact proceeds_done _ _
      · rename_i hrecords
        rw [if_neg hrecords] at hout
        exact save_proceeds h hout
  | update id revision z =>
    simp only [Call.body, update, Prog.ask_bind, Prog.pure_eq] at hout ⊢
    refine proceeds_load ?_
    have hrest := hout none _ _ rfl
    dsimp only at hrest ⊢
    split
    · exact proceeds_done _ _
    · rename_i old hold
      rw [hold] at hrest
      dsimp only at hrest
      split
      · exact proceeds_done _ _
      · rename_i hrevision
        rw [if_neg hrevision] at hrest
        split
        · exact proceeds_done _ _
        · rename_i hrecords
          rw [if_neg hrecords] at hrest
          exact save_proceeds h hrest
  | delete id revision =>
    simp only [Call.body, delete, Prog.ask_bind, Prog.pure_eq] at hout ⊢
    refine proceeds_load ?_
    have hrest := hout none _ _ rfl
    dsimp only at hrest ⊢
    split
    · exact proceeds_done _ _
    · rename_i old hold
      rw [hold] at hrest
      dsimp only at hrest
      split
      · exact proceeds_done _ _
      · rename_i hrevision
        rw [if_neg hrevision] at hrest
        split
        · exact proceeds_done _ _
        · rename_i next hnext
          rw [hnext] at hrest
          rintro _ rfl
          refine ⟨trivial, fun y a st₁ hact => ?_⟩
          have hrest := hrest y a st₁ hact
          cases y with
          | some e =>
            cases hact
            exact ⟨Onward.refl _, proceeds_done _ _⟩
          | none =>
            simp only [act] at hact
            split at hact
            · cases hact
              exact ⟨Onward.refl _, proceeds_done _ _⟩
            · rename_i repo hdelete
              cases hact
              exact proceeds_effect h hrest

/-! ### The calls of the service -/

variable (lib) in
/-- When a transfer makes a call, it is the update it should make, and its copy is known. -/
def Requested (r : Request) (st : Store) : Prop :=
  ∀ t, r.transfer = some t →
    Known t.zone st ∧ ∃ z, r.call = .update t.zone.id t.zone.revision z ∧ Writes lib t.zone t.heard z

variable (lib) in
/-- What is known of a call that is done. -/
structure Happened (d : Done Store Request (Except Err Zone)) : Prop where
  before : Consistent lib d.before
  outcome : Outcome lib d.before d.call.call d.result d.after

variable (lib) in
/-- What holds of the service at every step. -/
structure Serves (st : Store) (m : Monitor Store Request Op Ans (Except Err Zone)) : Prop where
  keeps : Monitor.Keeps act (Consistent lib) (Happened lib) st m
  along : m.Along act Onward
  started : m.Started (Requested lib)
  keyed : Keyed m.shared

theorem Outcome.consistent {r : Except Err Zone} (h : Consistent lib st) (hout : Outcome lib st c r st') :
    Consistent lib st' := by
  rcases hout with ⟨e, -, rfl⟩ | ⟨z, -, he⟩
  · exact h
  · exact he.consistent

theorem request_happened (r : Request) (st : Store) (h : Consistent lib st) :
    (r.call.body lib).wp act (fun a st' => Consistent lib st' ∧ Happened lib ⟨r, st, a, st'⟩) st :=
  Prog.wp_mono (wp_body h r.call) fun _ _ hout => ⟨Outcome.consistent h hout, h, hout⟩

/-- **A step of the service.** -/
theorem service_step {m m' : Monitor Store Request Op Ans (Except Err Zone)} {e : Monitor.Event Request (Option Err)}
    (h : Serves lib st m) (hrequest : ∀ r, e = .enter r → Requested lib r m.shared) (hs : serviceStep lib m e = some m') :
    Serves lib st m' ∧ Onward m.shared m'.shared := by
  have hbody : ∀ r : Request, m.busy = none → Proceeds (r.call.body lib) m.shared := by
    intro r hfree
    rw [h.keeps.free hfree]
    exact body_proceeds h.keeps.left r.call
  obtain ⟨honward, halong⟩ := Monitor.step_along Onward.refl hbody h.along hs
  exact ⟨⟨Monitor.step_keeps request_happened h.keeps hs, halong, Monitor.step_started hrequest h.started hs,
    honward.keyed h.keyed⟩, honward⟩

/-! ### The manager -/

variable (lib) in
/-- What holds of the manager at every step. -/
structure Manages (st : Store) (w : Manager) : Prop where
  serves : Serves lib st w.service
  threads : ∀ t ∈ w.threads, Known t.zone w.service.shared ∧ t.task.obeys (keepsTo lib t.zone) (fun _ _ => True) t.heard

/-- A step of a transfer. -/
theorem act_manages {w w' : Manager} {i : ℕ} {zone : Zone} {heard heard' : Heard} {x : Choice} {op : TransferOp}
    {a : TransferAns op} {Q : TransferAns op → Heard → Prop} (h : Serves lib st w.service)
    (hknown : Known zone w.service.shared) (hop : keepsTo lib zone op Q heard)
    (ha : w.act lib i zone heard x op = some (a, heard', w')) :
    Serves lib st w'.service ∧ Onward w.service.shared w'.service.shared ∧ Q a heard' := by
  cases op with
  | start id =>
    rw [Manager.act] at ha
    split at ha
    · cases ha
      exact ⟨h, Onward.refl _, hop _⟩
    · cases ha
      exact ⟨h, Onward.refl _, hop _⟩
  | update id revision z =>
    obtain ⟨⟨rfl, rfl, hwrites⟩, hQ⟩ := hop
    obtain ⟨m, hm, hr⟩ := Option.map_eq_some_iff.1 ha
    cases hr
    have hrequest : Requested lib ⟨.update zone.id zone.revision z, some ⟨i, zone, heard⟩⟩ w.service.shared := by
      intro t ht
      cases ht
      exact ⟨hknown, z, rfl, hwrites⟩
    obtain ⟨hserves, honward⟩ := service_step h (fun r hr => by cases hr; exact hrequest) hm
    exact ⟨hserves, honward, hQ⟩
  | await =>
    rw [Manager.act] at ha
    split at ha
    · cases ha
    · cases ha
      exact ⟨h, Onward.refl _, hop⟩
  | ixfr _ _ _ _ =>
    cases ha
    exact ⟨h, Onward.refl _, hop _⟩
  | axfr _ _ _ =>
    cases ha
    exact ⟨h, Onward.refl _, hop _⟩
  | now =>
    cases ha
    exact ⟨h, Onward.refl _, hop _⟩
  | stop id =>
    cases ha
    exact ⟨h, Onward.refl _, hop⟩

/-- A call that no transfer makes, or a step of the one under way. -/
theorem Manages.service {w : Manager} (h : Manages lib st w) {m : Monitor Store Request Op Ans (Except Err Zone)}
    {e : Monitor.Event Request (Option Err)} (he : ∀ r, e = .enter r → r.transfer = none)
    (hs : serviceStep lib w.service e = some m) :
    Manages lib st { w with service := m } ∧ Onward w.service.shared m.shared := by
  obtain ⟨hserves, honward⟩ := service_step h.serves (fun r hr t ht => by rw [he r hr] at ht; cases ht) hs
  exact ⟨⟨hserves, fun t ht => ⟨honward.known _ (h.threads t ht).1, (h.threads t ht).2⟩⟩, honward⟩

/-- **A step of the manager.** -/
theorem step_manages {w w' : Manager} {e : Event} (h : Manages lib st w) (hs : w.step lib e = some w') :
    Manages lib st w' ∧ Onward w.service.shared w'.service.shared := by
  cases e with
  | edit c =>
    obtain ⟨m, hm, rfl⟩ := Option.map_eq_some_iff.1 hs
    exact h.service (fun r hr => by cases hr; rfl) hm
  | turn x =>
    obtain ⟨m, hm, rfl⟩ := Option.map_eq_some_iff.1 hs
    exact h.service (fun r hr => by cases hr) hm
  | leave =>
    obtain ⟨m, hm, rfl⟩ := Option.map_eq_some_iff.1 hs
    exact h.service (fun r hr => by cases hr) hm
  | check now =>
    cases hs
    refine ⟨⟨h.serves, fun t ht => ?_⟩, Onward.refl _⟩
    rcases List.mem_append.1 ht with ht | ht
    · exact h.threads t ht
    · obtain ⟨z, hz, rfl⟩ := List.mem_map.1 ht
      obtain ⟨i, hi⟩ := Snapshot.mem_list.1 (List.mem_filter.1 hz).1
      refine ⟨.inl ?_, startTransfer_obeys z⟩
      dsimp only
      rw [h.serves.keyed i z hi]
      exact hi
  | transfer i x =>
    simp only [Manager.step] at hs
    split at hs
    · rename_i zone heard op k hi
      obtain ⟨⟨a, heard', w₁⟩, ha, rfl⟩ := Option.map_eq_some_iff.1 hs
      obtain ⟨hknown, hobeys⟩ := h.threads _ (List.mem_of_getElem? hi)
      obtain ⟨hserves, honward, hrest⟩ := act_manages h.serves hknown hobeys ha
      refine ⟨⟨hserves, fun t ht => ?_⟩, honward⟩
      rcases List.mem_or_eq_of_mem_set ht with ht | rfl
      · exact ⟨honward.known _ (h.threads t ht).1, (h.threads t ht).2⟩
      · exact ⟨honward.known _ hknown, hrest⟩
    · cases hs

/-! ### What a transfer does -/

variable (lib) in
/-- The record of a zone that stands for a wire record: with the TTL capped, and in normal form. -/
def Carries (name : Str) (rr : RR) (r : Record) : Prop :=
  ∃ r', importRecord lib rr = .ok r' ∧ normalizeRecord name { r' with ttl := min r'.ttl 86400 } = .ok { r with id := 0 }

theorem capped_eq (r : Record) : r.capped = { r with ttl := min r.ttl 86400 } := by
  have hmin : min r.ttl 86400 = if r.ttl ≤ 86400 then r.ttl else 86400 := rfl
  rw [Record.capped, hmin]
  by_cases hle : r.ttl ≤ 86400
  · rw [if_pos hle, if_neg (UInt32.not_lt.2 hle)]
  · rw [if_neg hle, if_pos (UInt32.not_le.1 hle)]

theorem importRecord_id {rr : RR} {r : Record} (h : importRecord lib rr = .ok r) : r.id = 0 := by
  unfold importRecord at h
  split at h
  all_goals
    cases h
    try rfl

theorem normalizeRecord_id {name : Str} {r r' : Record} (h : normalizeRecord name r = .ok r') : r'.id = r.id := by
  obtain ⟨_, _, _, _, _, _, _, _, _, _, rfl⟩ := normalizeRecord_eq_ok.1 h
  rfl

/-- The records of a transfer, in normal form and with the IDs they are stored under. -/
theorem carries_of {name : Str} {rrs : List RR} {records normal saved : List Record}
    (hrecords : List.Forall₂ (fun rr r => ∃ r', importRecord lib rr = .ok r' ∧ r'.capped = r) rrs records)
    (hnormal : List.Forall₂ (fun r n => normalizeRecord name r = .ok n) records normal)
    (hsaved : saved.map Record.content = normal.map Record.content) : List.Forall₂ (Carries lib name) rrs saved := by
  induction hrecords generalizing normal saved with
  | nil =>
    cases hnormal
    rw [List.map_nil, List.map_eq_nil_iff] at hsaved
    subst hsaved
    exact .nil
  | cons hr _ ih =>
    cases hnormal with
    | cons hn hrest =>
      cases saved with
      | nil => cases hsaved
      | cons s saved =>
        rw [List.map_cons, List.map_cons, List.cons.injEq] at hsaved
        refine .cons ?_ (ih hrest hsaved.2)
        obtain ⟨r', himport, rfl⟩ := hr
        refine ⟨r', himport, ?_⟩
        rw [← capped_eq, hn]
        have hnew : r'.id = 0 := importRecord_id himport
        have hid := (normalizeRecord_id hn).trans hnew
        have hcontent : Record.content s = Record.content _ := hsaved.1
        rw [Record.content, Record.content] at hcontent
        rw [hcontent, ← hid]

variable (lib) in
/-- What the update of a transfer does when it succeeds. The zone is the one the transfer has copied; it gets the records
of a complete full transfer together with the serial number of that, or keeps its own. -/
structure Transferred (t : Report) (saved : Zone) (before after : Store) : Prop where
  copied : before.published.byID.lookup t.zone.id = some t.zone
  published : ∀ i, after.published.byID.lookup i = if i = t.zone.id then some saved else before.published.byID.lookup i
  stored : after.repo.zones.find? (fun x => x.id = t.zone.id) = some (Repo.row saved)
  complete : ∀ a rrs soa, t.heard.axfr = some a → a.Completes lib rrs soa →
    List.Forall₂ (Carries lib t.zone.name) (rrs.filter (fun rr => !dropped rr)) saved.records ∧
      saved.lastTransferSerial = soa.serial
  incomplete : ¬ t.heard.Complete lib →
    saved.records = t.zone.records ∧ saved.lastTransferSerial = t.zone.lastTransferSerial

/-- A published zone has not passed its revision. -/
theorem Consistent.not_passed (h : Consistent lib st) {i : ℤ} (hz : st.published.byID.lookup i = some z) :
    ¬ Passed st.repo i z.revision := by
  intro hp
  have hrow := h.holds i
  rw [hz, Option.map_some] at hrow
  have hlt : z.revision < (Repo.row z).revision := hp.2 _ hrow.symm
  exact absurd hlt (UInt32.lt_irrefl _)

/-- A copy that is known and has the revision of the published zone is that zone. -/
theorem Known.eq {old : Zone} (h : Consistent lib st) (hz : Known z st) (hold : st.published.byID.lookup z.id = some old)
    (hrev : old.revision = z.revision) : old = z := by
  rcases hz with hz | hz
  · exact Option.some.inj (hold.symm.trans hz)
  · rw [← hrev] at hz
    exact absurd hz (h.not_passed hold)

theorem transferred_of {t : Report} {saved z : Zone} (h : Consistent lib st) (hknown : Known t.zone st)
    (hwrites : Writes lib t.zone t.heard z) (he : Effect lib st (.update t.zone.id t.zone.revision z) saved st') :
    Transferred lib t saved st st' := by
  cases he with
  | update hold hrev hmax hstored hid hseq =>
    cases hknown.eq h hold hrev
    obtain ⟨z', hz', heq, hcontent, hkept⟩ := hstored.normal
    obtain ⟨name, hname, _, _, _, _, _, records, hrecords, rfl⟩ := normalize_eq_ok.1 hz'
    -- the copy is in normal form
    obtain ⟨hrow, hmem⟩ := h.row_mem hold
    have hnormal : NormalZone t.zone := (Repo.row_alike t.zone).normal (h.sound.normal _ hmem)
    obtain ⟨name', hname', _, _, _, _, _, records', hrecords', hsame⟩ := normalize_eq_ok.1 hnormal
    have hnames : name = t.zone.name := by
      have hboth : name = name' := by
        dsimp only at hname
        rw [hwrites.name, hname'] at hname
        exact (Except.ok.inj hname).symm
      rw [hboth, ← hsame]
    refine ⟨hold, fun i => ?_, ?_, fun a rrs soa ha hc => ?_, fun hno => ?_⟩
    · rw [hstored.lookup, hid]
    · rw [hstored.find, if_pos hid.symm]
    · obtain ⟨hz, hserial⟩ := hwrites.complete a rrs soa ha hc
      refine ⟨?_, by rw [heq]; exact hserial⟩
      rw [← hnames]
      exact carries_of (transferRecords_ok hz).2 (forall₂_of_mapM_ok hrecords) hcontent
    · obtain ⟨hz, hserial⟩ := hwrites.incomplete hno
      refine ⟨?_, by rw [heq]; exact hserial⟩
      have hfixed : records = t.zone.records := by
        have hown : records' = t.zone.records := by rw [← hsame]
        have hnames' : name' = t.zone.name := by rw [← hsame]
        dsimp only at hrecords
        rw [hz, hnames, ← hnames', hrecords'] at hrecords
        exact (Except.ok.inj hrecords).symm.trans hown
      rw [hkept ?_, hfixed]
      dsimp only
      rw [hfixed]
      intro r hr
      have hpos := (h.sound.records _ hmem r ((Repo.row_perm _).mem_iff.2 hr)).1
      omega

/-! ### Every run -/

/-- The call has changed the zone, from the revision of the copy or a later one. -/
def Supersedes (z : Zone) (d : Done Store Request (Except Err Zone)) : Prop :=
  (∃ revision, z.revision ≤ revision ∧
    ((∃ z', d.call.call = .update z.id revision z') ∨ d.call.call = .delete z.id revision)) ∧
  ∃ saved, d.result = .ok saved

theorem Happened.passed {d : Done Store Request (Except Err Zone)} (h : Happened lib d) {i : ℤ} {revision : UInt32}
    (hp : Passed d.before.repo i revision) : Passed d.after.repo i revision := by
  rcases h.outcome with ⟨e, -, hsame⟩ | ⟨z, -, he⟩
  · rw [hsame]
    exact hp
  · exact he.passed h.before i revision hp

theorem Happened.supersedes {d : Done Store Request (Except Err Zone)} (h : Happened lib d) (hs : Supersedes z d) :
    Passed d.after.repo z.id z.revision := by
  obtain ⟨⟨revision, hle, hcall⟩, saved, hresult⟩ := hs
  obtain ⟨e, herror, -⟩ | ⟨saved', -, he⟩ := h.outcome
  · cases hresult.symm.trans herror
  · rcases hcall with ⟨z', hcall⟩ | hcall
    · rw [hcall] at he
      cases he with
      | update hold hrev hmax hstored hid hseq =>
        refine ⟨hseq ▸ (h.before.range hold).2, fun x hx => ?_⟩
        rw [hstored.find, if_pos hid.symm, Option.some.injEq] at hx
        have hrow : x.revision = saved'.revision := hx ▸ rfl
        have hnext : saved'.revision = revision + 1 := hstored.revision
        rw [hrow, hnext, UInt32.lt_iff_toNat_lt, toNat_next hmax]
        exact Nat.lt_succ_of_le (UInt32.le_iff_toNat_le.1 hle)
    · rw [hcall] at he
      cases he with
      | delete hold hrev hremoved hseq =>
        refine ⟨hseq ▸ (h.before.range hold).2, fun x hx => ?_⟩
        rw [hremoved.find, if_pos rfl] at hx
        cases hx

/-- What has been passed after a call is passed when the calls after it are done. -/
theorem serial_passed {log : List (Done Store Request (Except Err Zone))} (h : Monitor.Serial (Happened lib) st log)
    {i : ℤ} {revision : UInt32} :
    ∀ d ∈ log, Passed d.after.repo i revision → Passed (Monitor.left st log).repo i revision := by
  induction log with
  | nil => simp
  | cons d log ih =>
    obtain ⟨hbefore, hdone, hserial⟩ := h
    intro e he hp
    rcases List.mem_cons.1 he with rfl | he
    · exact hp
    · have hleft := ih hserial e he hp
      rw [← hbefore] at hleft
      exact hdone.passed hleft

/-- The update of a transfer, done. -/
theorem Happened.transfer {d : Done Store Request (Except Err Zone)} (h : Happened lib d)
    (hr : Requested lib d.call d.before) {t : Report} (ht : d.call.transfer = some t) :
    (∃ e, d.result = .error e ∧ d.after = d.before) ∨
      ∃ saved, d.result = .ok saved ∧ Transferred lib t saved d.before d.after := by
  obtain ⟨hknown, z, hcall, hwrites⟩ := hr t ht
  rcases h.outcome with hfailed | ⟨saved, hresult, he⟩
  · exact .inl hfailed
  · rw [hcall] at he
    exact .inr ⟨saved, hresult, transferred_of h.before hknown hwrites he⟩

theorem serial_supersedes {log : List (Done Store Request (Except Err Zone))} (h : Monitor.Serial (Happened lib) st log)
    (hr : ∀ d ∈ log, Requested lib d.call d.before) :
    log.Pairwise (fun d e => ∀ t, d.call.transfer = some t → Supersedes t.zone e → ∃ err, d.result = .error err) := by
  induction log with
  | nil => exact .nil
  | cons d log ih =>
    obtain ⟨hbefore, hdone, hserial⟩ := h
    refine List.pairwise_cons.2 ⟨fun e he t ht hs => ?_, ih hserial fun e he => hr e (List.mem_cons_of_mem d he)⟩
    have hpassed := serial_passed hserial e he ((Monitor.serial_mem hserial e he).supersedes hs)
    rw [← hbefore] at hpassed
    rcases hdone.transfer (hr d List.mem_cons_self) ht with ⟨err, herr, -⟩ | ⟨saved, -, hdid⟩
    · exact ⟨err, herr⟩
    · exact absurd hpassed (hdone.before.not_passed hdid.copied)

theorem Onward.trans {st₁ st₂ st₃ : Store} (h : Onward st₁ st₂) (h' : Onward st₂ st₃) : Onward st₁ st₃ :=
  ⟨fun hk => h'.keyed (h.keyed hk), fun z hz => h'.known z (h.known z hz)⟩

/-- A run of the manager. -/
theorem run_manages {w w' : Manager} {es : List Event} (h : Manages lib st w) (hrun : run (Manager.step lib) w es = some w') :
    Manages lib st w' ∧ Onward w.service.shared w'.service.shared := by
  refine run_keeps (P := fun v => Manages lib st v ∧ Onward w.service.shared v.service.shared) (fun v e v' hv hs => ?_) hrun
    ⟨h, Onward.refl _⟩
  obtain ⟨hmanages, honward⟩ := step_manages hv.1 hs
  exact ⟨hmanages, hv.2.trans honward⟩

/-- Between two calls the tables and what is published agree. -/
theorem Manages.consistent {w : Manager} (h : Manages lib st w) (hidle : w.service.busy = none) :
    Consistent lib w.service.shared := by
  rw [h.serves.keeps.free hidle]
  exact h.serves.keeps.left

theorem start_manages {db : Repo} {s : Snapshot} (hdb : db.Sound) (hstart : start lib db = .ok s) :
    Manages lib ⟨s, db, 0⟩ { service := { shared := ⟨s, db, 0⟩ } } := by
  have h := start_consistent hdb hstart
  refine ⟨⟨⟨trivial, h, fun _ => rfl, by simp⟩, ?_, ⟨by simp, by simp⟩, fun i z hz => (h.row_mem hz).1⟩, by simp⟩
  intro r s' p hb
  cases hb

/-- **Transfers are safe**, whatever the primary server and the repository answer and whoever else changes the zones: the
update of a transfer fails and changes nothing, or it is made on the zone as it was copied, with what a complete transfer
has brought. It fails when the zone has been changed since. -/
theorem transfers_safe {db : Repo} {s : Snapshot} (hdb : db.Sound) (hstart : start lib db = .ok s) {es : List Event}
    {w : Manager} (hrun : run (Manager.step lib) { service := { shared := ⟨s, db, 0⟩ } } es = some w) :
    (∀ d ∈ w.service.log, ∀ t, d.call.transfer = some t →
        (∃ e, d.result = .error e ∧ d.after = d.before) ∨
          ∃ saved, d.result = .ok saved ∧ Transferred lib t saved d.before d.after) ∧
      w.service.log.Pairwise (fun d e => ∀ t, d.call.transfer = some t → Supersedes t.zone e →
        ∃ err, d.result = .error err) := by
  have h := (run_manages (start_manages hdb hstart) hrun).1
  have hserial := h.serves.keeps.serial
  exact ⟨fun d hd t ht => (Monitor.serial_mem hserial d hd).transfer (h.serves.started.log d hd) ht,
    serial_supersedes hserial h.serves.started.log⟩

end

namespace Sample

def lan : Zone where
  id := 0
  name := "lan".toList
  primaryNS := []
  contact := []
  revision := 0
  records := []
  zoneType := "secondary".toList
  primaryAddress := "192.0.2.53:53".toList

/-- The zone is created. -/
def created : List Event := .edit (.create lan) :: List.replicate 4 (.turn none) ++ [.leave]

/-- As it is published then. -/
def published : Zone :=
  { lan with id := 1, name := "lan.".toList, primaryNS := "ns.lan.".toList, contact := "hostmaster.lan.".toList, revision := 1 }

def soa (serial : UInt32) : SOA := ⟨"ns.lan.".toList, "admin.lan.".toList, serial, 0, 0, 0, 0⟩

/-- A full transfer with one host, whose TTL is too long for a zone of this server. -/
def full (serial : UInt32) (last : UInt8) : Answer where
  result := some {
    records := [⟨⟨"lan.".toList, classINET, 60⟩, .soa (soa serial)⟩,
      ⟨⟨"WWW.lan.".toList, classINET, 604800⟩, .a [192, 0, 2, last]⟩]
    soa := some (soa serial)
    errors := [] }
  err := none

def refused : Answer where
  result := none
  err := some "refused".toList

/-- The steps of a transfer in thread `i` with these answers, to its update. -/
def asks (i : ℕ) (answers : List Answer) : List Event :=
  .transfer i ⟨refused, 0⟩ :: answers.map (fun a => .transfer i ⟨a, 0⟩) ++ List.replicate 2 (.transfer i ⟨refused, 0⟩)

/-- The zone is created and transferred. While it is transferred again an administrator changes it. -/
def day : List Event :=
  .edit (.create lan) :: List.replicate 4 (.turn none) ++ .leave :: .check 0 :: asks 0 [full 7 1] ++
    List.replicate 5 (.turn none) ++ .leave :: .transfer 0 ⟨refused, 0⟩ :: .transfer 0 ⟨refused, 0⟩ ::
      .check (4000 * 10 ^ 9) :: .edit (.update 1 2 lan) :: List.replicate 5 (.turn none) ++ .leave ::
        asks 1 [refused, full 8 2] ++ .turn none :: [.leave]

end Sample

open Velora.Zones.Sample in
theorem transfers_safe_day : ∃ w, run (Manager.step Sample.lib) { service := { shared := ⟨{}, {}, 0⟩ } } day = some w ∧
    w.service.log.map (fun d => (d.call.transfer.isSome, d.result.toOption.map Zone.revision)) =
      [(true, none), (false, some 3), (true, some 2), (false, some 1)] ∧
    ∀ d ∈ w.service.log, ∀ t, d.call.transfer = some t →
      (∃ e, d.result = .error e ∧ d.after = d.before) ∨
        ∃ saved, d.result = .ok saved ∧ Transferred Sample.lib t saved d.before d.after := by
  have hrun : (run (Manager.step Sample.lib) { service := { shared := ⟨{}, {}, 0⟩ } } day).any (fun w =>
      w.service.log.map (fun d => (d.call.transfer.isSome, d.result.toOption.map Zone.revision)) ==
        [(true, none), (false, some 3), (true, some 2), (false, some 1)]) = true := by
    decide +kernel
  obtain ⟨w, hw, hlog⟩ := (Option.any_eq_true _ _).1 hrun
  have hstart : start lib {} = .ok {} := rfl
  exact ⟨w, hw, by simpa using hlog, (transfers_safe Repo.sound_empty hstart hw).1⟩

end Velora.Zones
