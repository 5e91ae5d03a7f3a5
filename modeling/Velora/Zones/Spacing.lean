import Velora.Zones.Calls
import Velora.Zones.Transfers

/-!
# The time between two transfers

A transfer that runs alone ends in one `Update`, which stores when the zone is to be transferred next together with what the
primary server has sent. When `compile` rejects this, nothing is stored, and the zone is as due as it was before the transfer
(`transfer_spacing_iff`).
-/

namespace Velora.Zones

open Velora.Lib Velora.Lib.Text Velora.Lib.Loops Velora.Wire Velora.Dns

/-! ### A transfer alone -/

/-- What the outside gives a transfer. -/
structure Primary where
  ixfr : Answer
  axfr : Answer
  now : ℕ

section

variable (lib : Miekg)

/-- The steps of `performTransfer` while nobody else uses the service and the database does not fail. -/
def alone : (op : TransferOp) → Primary → Store → Option (TransferAns op × Store)
  | .start _, _, _ => none
  | .ixfr _ _ _ _, x, st => some (x.ixfr, st)
  | .axfr _ _ _, x, st => some (x.axfr, st)
  | .now, x, st => some (x.now, st)
  | .update id revision z, _, st => ((update lib id revision z).exec act none st).map (fun r => ((), r.2))
  | .await, _, st => some ((), st)
  | .stop _, _, st => some ((), st)

/-- What a full transfer has brought. -/
def Answer.complete (a : Answer) : Option (SOA × List Record) :=
  if a.err.isSome then none
  else
    match a.result with
    | none => none
    | some result =>
      if result.errors ≠ [] then none
      else
        match transferRecords lib result.records, result.soa with
        | .ok records, some soa => some (soa, records)
        | _, _ => none

/-- What a transfer has brought, if it was not in vain. -/
def brought (z : Zone) (x : Primary) : Option (SOA × List Record) :=
  if z.lastTransferSerial > 0 then
    match current z x.ixfr with
    | some soa => some (soa, z.records)
    | none => x.axfr.complete lib
  else x.axfr.complete lib

/-- The zone with it. -/
def Zone.renewed (z : Zone) : Option (SOA × List Record) → Zone
  | none => z
  | some (soa, records) =>
    { z with lastTransferSerial := soa.serial, primaryNS := soa.ns, contact := soa.mbox, records := records }

/-- The effective transfer interval, in seconds. -/
def interval (z : Zone) : ℤ := if z.transferInterval ≤ 0 then 3600 else z.transferInterval

/-- The seconds to the next transfer. -/
def wait (z : Zone) (success : Bool) : ℤ :=
  if success then interval z else if interval z / 6 < 60 then 60 else interval z / 6

/-- What the update of a transfer is to store. -/
def written (z : Zone) (x : Primary) : Zone :=
  let b := brought lib z x
  { z.renewed b with
    lastTransferAt := some x.now, nextRefreshAt := some (x.now + seconds (wait z b.isSome)).toNat }

end

section

variable {lib : Miekg} {st st' : Store} {z : Zone} {x : Primary}

/-- `updateTransferState` alone. -/
theorem exec_updateTransferState (success : Bool) (b : Option (SOA × List Record)) :
    (updateTransferState z success (b.map Prod.fst) ((b.map Prod.snd).getD [])).exec (alone lib) x st =
      ((update lib z.id z.revision { z.renewed b with
        lastTransferAt := some x.now, nextRefreshAt := some (x.now + seconds (wait z success)).toNat }).exec act none
          st).map (fun r => ((), r.2)) := by
  cases b with
  | none =>
    simp only [updateTransferState, Prog.ask_bind, Prog.exec_call, alone, Option.bind_some, Option.map_none, Option.getD_none]
    rw [Option.bind_map]
    exact Option.map_eq_bind.symm
  | some b =>
    simp only [updateTransferState, Prog.ask_bind, Prog.exec_call, alone, Option.bind_some, Option.map_some, Option.getD_some]
    rw [Option.bind_map]
    exact Option.map_eq_bind.symm

/-- `updateTransferState` with what a transfer has brought. -/
def conclude (z : Zone) (b : Option (SOA × List Record)) : Task :=
  updateTransferState z b.isSome (b.map Prod.fst) ((b.map Prod.snd).getD [])

theorem concludeTransfer_eq (z : Zone) (a : Answer) : concludeTransfer lib z a = conclude z (a.complete lib) := by
  obtain ⟨result, err⟩ := a
  unfold concludeTransfer Answer.complete
  dsimp only
  cases err with
  | some e => rfl
  | none =>
    cases result with
    | none => rfl
    | some r =>
      by_cases herrors : r.errors = []
      · dsimp only
        rw [if_neg (not_not.2 herrors), if_neg (not_not.2 herrors)]
        cases transferRecords lib r.records with
        | error e => rfl
        | ok records =>
          cases r.soa with
          | none => rfl
          | some soa => rfl
      · dsimp only
        rw [if_pos herrors, if_pos herrors]
        rfl

theorem exec_brought : (performTransfer lib z).exec (alone lib) x st = (conclude z (brought lib z x)).exec (alone lib) x st := by
  unfold performTransfer brought
  by_cases hserial : z.lastTransferSerial > 0
  · rw [if_pos hserial, if_pos hserial, Prog.ask_bind, Prog.exec_call, alone, Option.bind_some]
    dsimp only
    cases current z x.ixfr with
    | some soa => rfl
    | none =>
      dsimp only
      rw [Prog.ask_bind, Prog.exec_call, alone, Option.bind_some, concludeTransfer_eq]
  · rw [if_neg hserial, if_neg hserial, Prog.ask_bind, Prog.exec_call, alone, Option.bind_some, concludeTransfer_eq]

/-- **A transfer that runs alone** is one update. -/
theorem exec_performTransfer : (performTransfer lib z).exec (alone lib) x st =
    ((update lib z.id z.revision (written lib z x)).exec act none st).map (fun r => ((), r.2)) := by
  rw [exec_brought]
  exact exec_updateTransferState _ _

/-! ### The manager while it is alone -/

/-- A step of the transfer in thread `i`, or of the call it waits for. -/
def Own (i : ℕ) (e : Event) : Prop := e = .turn none ∨ e = .leave ∨ ∃ c, e = .transfer i c

theorem run_service {m : Monitor Store Request Op Ans (Except Err Zone)} (w : Manager) (n : ℕ)
    (h : run (serviceStep lib) w.service (List.replicate n (.turn none)) = some m) :
    run (Manager.step lib) w (List.replicate n (.turn none)) = some { w with service := m } := by
  induction n generalizing w with
  | zero =>
    cases h
    rfl
  | succ n ih =>
    rw [List.replicate_succ, run_cons, Option.bind_eq_some_iff] at h
    obtain ⟨m₁, hm₁, hrest⟩ := h
    rw [List.replicate_succ, run_cons, Manager.step, hm₁]
    exact ih { w with service := m₁ } hrest

/-- The update of a transfer runs to its end. -/
theorem run_update {w : Manager} {i : ℕ} {heard : Heard} {id : ℤ} {revision : UInt32} {v : Zone} {k : Unit → Task}
    {r : Except Err Zone} (hidle : w.service.busy = none)
    (hthread : w.threads[i]? = some ⟨z, heard, .call (.update id revision v) k⟩)
    (hexec : (update lib id revision v).exec act none w.service.shared = some (r, st')) :
    ∃ es w', (∀ e ∈ es, Own i e) ∧ run (Manager.step lib) w es = some w' ∧ w'.service.busy = none ∧
      w'.service.shared = st' ∧ w'.threads[i]? = some ⟨z, heard, k ()⟩ := by
  obtain ⟨⟨st, busy, log⟩, transfers, threads⟩ := w
  obtain rfl : busy = none := hidle
  have hlt := (List.getElem?_eq_some_iff.1 hthread).1
  let request : Request := ⟨.update id revision v, some ⟨i, z, heard⟩⟩
  let threads' := threads.set i ⟨z, heard, k ()⟩
  obtain ⟨n, hn⟩ : ∃ n, run (serviceStep lib) ⟨st, some (request, st, update lib id revision v), log⟩
      (List.replicate n (.turn none)) = some ⟨st', some (request, st, .done r), log⟩ := Monitor.run_turns hexec
  have henter : Manager.step lib ⟨⟨st, none, log⟩, transfers, threads⟩ (.transfer i ⟨⟨none, none⟩, 0⟩) =
      some ⟨⟨st, some (request, st, update lib id revision v), log⟩, transfers, threads'⟩ := by
    rw [Manager.step, hthread]
    rfl
  refine ⟨.transfer i ⟨⟨none, none⟩, 0⟩ :: (List.replicate n (.turn none) ++ [.leave]),
    ⟨⟨st', none, ⟨request, st, r, st'⟩ :: log⟩, transfers, threads'⟩, ?_, ?_, rfl, rfl, List.getElem?_set_self hlt⟩
  · refine List.forall_mem_cons.2 ⟨Or.inr (Or.inr ⟨_, rfl⟩), fun e he => ?_⟩
    rcases List.mem_append.1 he with he | he
    · exact Or.inl (List.eq_of_mem_replicate he)
    · exact Or.inr (Or.inl (List.mem_singleton.1 he))
  · rw [run_cons, henter, Option.bind_some, run_append, run_service _ n hn]
    rfl

/-- **A transfer that runs alone is a run of the manager**, in which only its own steps are taken. -/
theorem run_alone {p : Task} {i : ℕ} {w : Manager} {heard : Heard} (hidle : w.service.busy = none)
    (hthread : w.threads[i]? = some ⟨z, heard, p⟩) (hexec : p.exec (alone lib) x w.service.shared = some ((), st')) :
    ∃ es w' heard', (∀ e ∈ es, Own i e) ∧ run (Manager.step lib) w es = some w' ∧ w'.service.busy = none ∧
      w'.service.shared = st' ∧ w'.threads[i]? = some ⟨z, heard', .done ()⟩ := by
  induction p generalizing w heard with
  | done u =>
    cases hexec
    exact ⟨[], w, heard, by simp, rfl, hidle, rfl, hthread⟩
  | call op k ih =>
    obtain ⟨⟨a, st₁⟩, hact, hrest⟩ := Option.bind_eq_some_iff.1 hexec
    -- a step that leaves the service as it is
    have hstep : ∀ (c : Choice) (heard₁ : Heard) (w₁ : Manager), w.act lib i z heard c op = some (a, heard₁, w₁) →
        w₁.service = w.service → w₁.threads = w.threads → st₁ = w.service.shared →
        ∃ es w' heard', (∀ e ∈ es, Own i e) ∧ run (Manager.step lib) w es = some w' ∧ w'.service.busy = none ∧
          w'.service.shared = st' ∧ w'.threads[i]? = some ⟨z, heard', .done ()⟩ := by
      intro c heard₁ w₁ hw hservice hthreads hst
      have hlt := (List.getElem?_eq_some_iff.1 hthread).1
      obtain ⟨es, w', heard', hown, hrun, hend⟩ := ih a (w := { w₁ with threads := w.threads.set i ⟨z, heard₁, k a⟩ })
        (hservice ▸ hidle) (by rw [List.getElem?_set_self hlt]) (by rw [hservice, ← hst]; exact hrest)
      refine ⟨.transfer i c :: es, w', heard', ?_, ?_, hend⟩
      · exact List.forall_mem_cons.2 ⟨Or.inr (Or.inr ⟨c, rfl⟩), hown⟩
      · rw [run_cons, Manager.step, hthread]
        dsimp only
        rw [hw]
        exact hrun
    cases op with
    | start id => cases hact
    | ixfr _ _ _ _ =>
      cases hact
      exact hstep ⟨x.ixfr, x.now⟩ _ w rfl rfl rfl rfl
    | axfr _ _ _ =>
      cases hact
      exact hstep ⟨x.axfr, x.now⟩ _ w rfl rfl rfl rfl
    | now =>
      cases hact
      exact hstep ⟨x.axfr, x.now⟩ _ w rfl rfl rfl rfl
    | update id revision v =>
      obtain ⟨⟨r, st₂⟩, hupdate, heq⟩ := Option.map_eq_some_iff.1 hact
      cases heq
      obtain ⟨es, w₁, hown, hrun, hidle₁, hshared, hthread₁⟩ := run_update hidle hthread hupdate
      obtain ⟨es', w', heard', hown', hrun', hend⟩ := ih () hidle₁ hthread₁ (by rw [hshared]; exact hrest)
      refine ⟨es ++ es', w', heard', fun e he => ?_, ?_, hend⟩
      · exact (List.mem_append.1 he).elim (hown e) (hown' e)
      · rw [run_append, hrun]
        exact hrun'
    | await =>
      cases hact
      have hwaits : w.waits i = false := by
        rw [Manager.waits, hidle]
      exact hstep ⟨x.axfr, x.now⟩ heard w (by rw [Manager.act, hwaits]; rfl) rfl rfl rfl
    | stop id =>
      cases hact
      exact hstep ⟨x.axfr, x.now⟩ heard { w with transfers := w.transfers.erase id } rfl rfl rfl rfl

/-! ### What `compile` looks at -/

theorem compile_of_normalize {zs zs' : List Zone} {next : Snapshot} (h : zs.mapM normalize = .ok zs')
    (hc : compile lib zs' = .ok next) : compile lib zs = .ok next := by
  obtain ⟨hlen, total, hindex, hfree⟩ := compile_eq_ok.1 hc
  refine compile_eq_ok.2 ⟨?_, total, ?_, hfree⟩
  · rw [← length_of_mapM_ok h]
    exact hlen
  · rw [index_normalize h]
    exact hindex

/-- `normalize` keeps the IDs of records. -/
theorem IdsOk.normalized {name : Str} {rs rs' : List Record} (hids : IdsOk rs)
    (h : rs.mapM (normalizeRecord name) = .ok rs') : IdsOk rs' := by
  have hmap : rs'.map Record.id = rs.map Record.id := by
    have hall := forall₂_of_mapM_ok h
    clear h hids
    induction hall with
    | nil => rfl
    | cons hr _ ih => rw [List.map_cons, List.map_cons, ih, normalizeRecord_id hr]
  refine ⟨fun r hr => ?_, hmap ▸ hids.distinct⟩
  obtain ⟨r₀, hr₀, hid⟩ := List.mem_map.1 (hmap ▸ List.mem_map_of_mem hr)
  rw [← hid]
  exact hids.nonneg r₀ hr₀

/-- Whether a zone is accepted beside others depends on its names and records. -/
theorem accepts_snoc_congr {zs : List Zone} {w : Zone} (hzs : AllNormal zs) (hids : ∀ y ∈ zs, IdsOk y.records)
    (hname : z.name = w.name) (hns : z.primaryNS = w.primaryNS) (hcontact : z.contact = w.contact)
    (hrecords : z.records = w.records) (hzids : IdsOk z.records) (h : Accepts lib (zs ++ [z])) : Accepts lib (zs ++ [w]) := by
  obtain ⟨next, hc⟩ := h
  obtain ⟨z', hz', hc'⟩ := compile_snoc hzs hc
  obtain ⟨name, hname', ns, hns', contact, hcontact', hlen, records, hmap, rfl⟩ := normalize_eq_ok.1 hz'
  rw [hname] at hname'
  rw [hns] at hns'
  rw [hcontact] at hcontact'
  rw [hrecords] at hlen hmap hzids
  have hw : normalize w = .ok { w with name := name, primaryNS := ns, contact := contact, records := records } :=
    normalize_eq_ok.2 ⟨name, hname', ns, hns', contact, hcontact', hlen, records, hmap, rfl⟩
  have hok : ∀ v : Zone, v.records = records → ∀ y ∈ zs ++ [v], IdsOk y.records := by
    intro v hv y hy
    rcases List.mem_append.1 hy with hy | hy
    · exact hids y hy
    · rw [List.mem_singleton.1 hy, hv]
      exact hzids.normalized hmap
  have hnormal : AllNormal (zs ++ [{ z with name := name, primaryNS := ns, contact := contact, records := records }]) := by
    intro y hy
    rcases List.mem_append.1 hy with hy | hy
    · exact hzs y hy
    · rw [List.mem_singleton.1 hy]
      exact normalize_normal hz'
  have hlike : Similar (zs ++ [{ z with name := name, primaryNS := ns, contact := contact, records := records }])
      (zs ++ [{ w with name := name, primaryNS := ns, contact := contact, records := records }]) :=
    similar_snoc zs ⟨rfl, rfl, rfl, .refl _⟩
  obtain ⟨next', hnext⟩ := (accepts_similar hlike hnormal (hok _ rfl) (hok _ rfl)).1 ⟨next, hc'⟩
  refine ⟨next', compile_of_normalize ?_ hnext⟩
  rw [List.mapM_append, mapM_ok_of_fixed hzs, List.mapM_cons, List.mapM_nil, hw]
  rfl

/-! ### When the update succeeds -/

/-- The other zones. -/
def Store.others (st : Store) (id : ℤ) : List Zone := st.published.list.filter (fun y => y.id ≠ id)

/-- The tables take a zone that `compile` has accepted. -/
def Takes (lib : Miekg) (st : Store) (z : Zone) (expected : UInt32) : Prop :=
  ∀ next ∈ (compile lib (st.published.list.eraseP (fun old => old.id = z.id) ++ [z])).toOption,
    (st.repo.saveZone ((next.byID.lookup z.id).getD default) expected).toOption.isSome = true

instance (lib : Miekg) (st : Store) (z : Zone) (expected : UInt32) : Decidable (Takes lib st z expected) :=
  inferInstanceAs (Decidable (∀ next ∈ (compile lib (st.published.list.eraseP (fun old => old.id = z.id) ++ [z])).toOption,
    (st.repo.saveZone ((next.byID.lookup z.id).getD default) expected).toOption.isSome = true))

/-- The records of a zone are new ones, or those of another. -/
def Owned (old z : Zone) : Prop := ∀ r ∈ z.records, r.id ≠ 0 → ∃ o ∈ old.records, o.id = r.id

/-- **When an update succeeds** that the tables take. -/
theorem update_saves_iff {id : ℤ} {old w : Zone} (h : Consistent lib st) (hold : st.published.byID.lookup id = some old)
    (hown : Owned old w)
    (htakes : Takes lib st { w with id := id, revision := old.revision + 1 } old.revision) :
    (∃ saved st', (update lib id old.revision w).exec act none st = some (.ok saved, st')) ↔
      old.revision ≠ maxUint32 ∧ Accepts lib (st.others id ++ [{ w with id := id, revision := old.revision + 1 }]) := by
  simp only [update, Prog.ask_bind, Prog.pure_eq, Prog.exec_call, act, Option.bind_some, hold]
  have hids : ¬ w.records.any (fun r => r.id ≠ 0 && !old.records.any (fun o => o.id = r.id)) = true := by
    rw [List.any_eq_true]
    rintro ⟨r, hr, hbad⟩
    rw [Bool.and_eq_true, decide_eq_true_eq, Bool.not_eq_true', List.any_eq_false] at hbad
    obtain ⟨o, ho, hoid⟩ := hown r hr hbad.1
    exact hbad.2 o ho (decide_eq_true hoid)
  by_cases hmax : old.revision = maxUint32
  · rw [if_pos (Or.inr hmax)]
    simp [hmax]
  rw [if_neg (by simp [hmax]), if_neg hids, exec_save, and_iff_right hmax]
  dsimp only
  rw [eraseP_id_eq_filter h.list_ids]
  constructor
  · rintro ⟨next, -, -, hc, -⟩
    exact ⟨next, hc⟩
  · rintro ⟨next, hc⟩
    have hnext := htakes next (by rw [eraseP_id_eq_filter h.list_ids]; exact congrArg Except.toOption hc)
    obtain ⟨⟨saved, repo⟩, hsave⟩ := Option.isSome_iff_exists.1 hnext
    exact ⟨next, saved, repo, hc, eq_ok_of_toOption hsave⟩

theorem Consistent.lookup_self (h : Consistent lib st) (hz : z ∈ st.published.list) :
    st.published.byID.lookup z.id = some z := by
  rw [h.lookup_eq]
  exact (Keyed.find?_eq_some h.list_ids).2 ⟨hz, rfl⟩

theorem Consistent.others_perm (h : Consistent lib st) (hz : z ∈ st.published.list) :
    (st.others z.id ++ [z]).Perm st.published.list := by
  obtain ⟨i, hi⟩ := List.mem_iff_getElem?.1 hz
  obtain ⟨hlt, rfl⟩ := List.getElem?_eq_some_iff.1 hi
  rw [Store.others, Keyed.filter_ne_eq_eraseIdx h.list_ids hi]
  exact (List.perm_append_singleton _ _).trans (List.getElem_cons_eraseIdx_perm hlt)

/-- The zone as it is published is accepted. -/
theorem Consistent.accepts_self (h : Consistent lib st) (hz : z ∈ st.published.list) : Accepts lib (st.others z.id ++ [z]) := by
  have hperm := h.others_perm hz
  have hids : ∀ y ∈ st.others z.id ++ [z], IdsOk y.records := fun y hy => h.list_idsOk y (hperm.mem_iff.1 hy)
  exact (accepts_similar (Similar.of_perm hperm.symm) h.list_normal h.list_idsOk hids).1 h.accepted

theorem transferRecords_new {rrs : List RR} {records : List Record} (h : transferRecords lib rrs = .ok records) :
    ∀ r ∈ records, r.id = 0 := by
  have hall := (transferRecords_ok h).2
  clear h
  generalize rrs.filter (fun rr => !dropped rr) = kept at hall
  induction hall with
  | nil => simp
  | cons hr _ ih =>
    obtain ⟨r', hr', rfl⟩ := hr
    have hid : r'.id = 0 := importRecord_id hr'
    exact List.forall_mem_cons.2 ⟨hid, ih⟩

/-- The records of a transfer are new ones, or those the zone has. -/
theorem brought_records {b : SOA × List Record} (h : brought lib z x = some b) : b.2 = z.records ∨ ∀ r ∈ b.2, r.id = 0 := by
  have hfull : ∀ a : Answer, a.complete lib = some b → ∀ r ∈ b.2, r.id = 0 := by
    intro a ha
    unfold Answer.complete at ha
    split at ha
    · cases ha
    split at ha
    · cases ha
    split at ha
    · cases ha
    split at ha
    · rename_i hrecords _
      cases ha
      exact transferRecords_new hrecords
    · cases ha
  unfold brought at h
  split at h
  · split at h
    · cases h
      exact Or.inl rfl
    · exact Or.inr (hfull _ h)
  · exact Or.inr (hfull _ h)

/-- **When the update of a transfer succeeds.** -/
theorem update_written_iff (h : Consistent lib st) (hz : z ∈ st.published.list)
    (htakes : Takes lib st { written lib z x with id := z.id, revision := z.revision + 1 } z.revision) :
    (∃ saved st', (update lib z.id z.revision (written lib z x)).exec act none st = some (.ok saved, st')) ↔
      z.revision ≠ maxUint32 ∧ ∀ b ∈ brought lib z x, Accepts lib (st.others z.id ++ [z.renewed (some b)]) := by
  have hnormal : AllNormal (st.others z.id) := fun y hy => h.list_normal y (List.mem_of_mem_filter hy)
  have hids : ∀ y ∈ st.others z.id, IdsOk y.records := fun y hy => h.list_idsOk y (List.mem_of_mem_filter hy)
  have hown : Owned z (written lib z x) := by
    intro r hr hne
    unfold written at hr
    cases hb : brought lib z x with
    | none =>
      rw [hb] at hr
      exact ⟨r, hr, rfl⟩
    | some b =>
      rw [hb] at hr
      rcases brought_records hb with hsame | hnew
      · exact ⟨r, hsame ▸ hr, rfl⟩
      · exact absurd (hnew r hr) hne
  rw [update_saves_iff h (h.lookup_self hz) hown htakes]
  refine and_congr_right fun _ => ?_
  cases hb : brought lib z x with
  | none =>
    have haccepts : Accepts lib (st.others z.id ++ [{ written lib z x with id := z.id, revision := z.revision + 1 }]) := by
      refine accepts_snoc_congr hnormal hids ?_ ?_ ?_ ?_ (h.list_idsOk z hz) (h.accepts_self hz)
      all_goals
        unfold written
        rw [hb]
        rfl
    exact iff_of_true haccepts (by simp)
  | some b =>
    have hnames : ∀ w : Zone, w = { written lib z x with id := z.id, revision := z.revision + 1 } →
        w.name = (z.renewed (some b)).name ∧ w.primaryNS = (z.renewed (some b)).primaryNS ∧
          w.contact = (z.renewed (some b)).contact ∧ w.records = (z.renewed (some b)).records := by
      rintro w rfl
      unfold written
      rw [hb]
      exact ⟨rfl, rfl, rfl, rfl⟩
    obtain ⟨hname, hns, hcontact, hrecords⟩ := hnames _ rfl
    have hnew : IdsOk b.2 := by
      rcases brought_records hb with hsame | hnew
      · rw [hsame]
        exact h.list_idsOk z hz
      · exact idsOk_new hnew
    constructor
    · rintro haccepts _ ⟨⟩
      exact accepts_snoc_congr hnormal hids hname hns hcontact hrecords (hrecords ▸ hnew) haccepts
    · intro haccepts
      exact accepts_snoc_congr hnormal hids hname.symm hns.symm hcontact.symm hrecords.symm hnew (haccepts b rfl)

end

/-! ### Spacing -/

/-- The zone is not transferred again before the smaller of a minute and its interval has passed since `t`. -/
def Spaced (t : ℕ) (z : Zone) : Prop :=
  (∃ next, z.nextRefreshAt = some next ∧ (t : ℤ) + min 60 (interval z) * 10 ^ 9 ≤ next) ∧
    ∀ now : ℕ, (now : ℤ) < t + min 60 (interval z) * 10 ^ 9 → due z now = false

section

variable (lib : Miekg)

/-- What a transfer stores is accepted: there is a revision left, what the primary server has sent is a zone that `compile`
accepts beside the others, and the time to the next transfer is not too long for 64 bits. -/
structure Recordable (st : Store) (z : Zone) (x : Primary) : Prop where
  revision : z.revision ≠ maxUint32
  accepted : ∀ b ∈ brought lib z x, Accepts lib (st.others z.id ++ [z.renewed (some b)])
  fits : min 60 (interval z) * 10 ^ 9 ≤ seconds (wait z (brought lib z x).isSome)

variable {lib} {st : Store} {z : Zone} {x : Primary}

theorem interval_pos (z : Zone) : 0 < min 60 (interval z) := by
  unfold interval
  refine lt_min (by decide) ?_
  split <;> omega

theorem due_eq_false {next now : ℕ} (hnext : z.nextRefreshAt = some next) (hlt : now < next) : due z now = false := by
  unfold due
  rw [hnext, Option.all_some, decide_eq_true hlt]
  simp

/-- A zone that is due is not spaced from then on. -/
theorem not_spaced {read t : ℕ} (hdue : due z read = true) (hread : read ≤ t) : ¬ Spaced t z := by
  rintro ⟨⟨next, hnext, hle⟩, -⟩
  have hpos := interval_pos z
  rw [due_eq_false hnext (by omega)] at hdue
  cases hdue

/-- What the update has stored is spaced when the time it waits is long enough. -/
theorem spaced_iff {t : ℕ} {n : ℤ} (hnext : z.nextRefreshAt = some (t + n).toNat) :
    Spaced t z ↔ min 60 (interval z) * 10 ^ 9 ≤ n := by
  have hpos := interval_pos z
  constructor
  · rintro ⟨⟨next, hnext', hle⟩, -⟩
    cases hnext.symm.trans hnext'
    omega
  · intro hle
    refine ⟨⟨_, hnext, by omega⟩, fun now hnow => due_eq_false hnext (by omega)⟩

/-- **One transfer.** -/
theorem exec_spaced_iff (h : Consistent lib st) (hz : z ∈ st.published.list) {read : ℕ} (hdue : due z read = true)
    (hread : read ≤ x.now)
    (htakes : Takes lib st { written lib z x with id := z.id, revision := z.revision + 1 } z.revision) :
    ∃ st', (performTransfer lib z).exec (alone lib) x st = some ((), st') ∧
      ((∃ z' ∈ st'.published.list, z'.id = z.id ∧ Spaced x.now z') ↔ Recordable lib st z x) := by
  obtain ⟨r, st', hexec⟩ := exec_body (update lib z.id z.revision (written lib z x)) none st
  refine ⟨st', by rw [exec_performTransfer, hexec]; rfl, ?_⟩
  have hiff := update_written_iff h hz htakes
  have hout : Outcome lib st (.update z.id z.revision (written lib z x)) r st' :=
    Prog.exec_of_wp (wp_update h z.id z.revision (written lib z x)) hexec
  rcases hout with ⟨e, rfl, rfl⟩ | ⟨saved, rfl, he⟩
  · -- nothing has been stored
    refine iff_of_false ?_ fun hr => ?_
    · rintro ⟨z', hz', hid, hspaced⟩
      rw [List.inj_on_of_nodup_map h.list_ids hz' hz hid] at hspaced
      exact not_spaced hdue hread hspaced
    · obtain ⟨saved, st'', hsaved⟩ := hiff.2 ⟨hr.revision, hr.accepted⟩
      cases hexec.symm.trans hsaved
  · obtain ⟨hrev, haccepted⟩ := hiff.1 ⟨saved, st', hexec⟩
    cases he with
    | update hold hsame hmax hstored hid hseq =>
      have hlookup : st'.published.byID.lookup z.id = some saved := by rw [hstored.lookup, if_pos hid.symm]
      have hmem : saved ∈ st'.published.list := Snapshot.mem_list.2 ⟨z.id, hlookup⟩
      have hsaved : saved.nextRefreshAt = (written lib z x).nextRefreshAt ∧
          saved.transferInterval = (written lib z x).transferInterval := by
        obtain ⟨z', hz', heq, -⟩ := hstored.normal
        obtain ⟨_, _, _, _, _, _, _, _, _, rfl⟩ := normalize_eq_ok.1 hz'
        rw [heq]
        exact ⟨rfl, rfl⟩
      have hinterval : interval saved = interval z := by
        have hz : (written lib z x).transferInterval = z.transferInterval := by
          unfold written Zone.renewed
          dsimp only
          split <;> rfl
        unfold interval
        rw [hsaved.2, hz]
      have hspaced : Spaced x.now saved ↔ min 60 (interval z) * 10 ^ 9 ≤ seconds (wait z (brought lib z x).isSome) := by
        rw [← hinterval]
        exact spaced_iff hsaved.1
      constructor
      · rintro ⟨z', hz', hid', h'⟩
        rw [List.inj_on_of_nodup_map hstored.consistent.list_ids hz' hmem (hid'.trans hid.symm)] at h'
        exact ⟨hrev, haccepted, hspaced.1 h'⟩
      · intro hr
        exact ⟨saved, hmem, hid, hspaced.2 hr.fits⟩

/-- **The next transfer.** From every state that a run of the manager reaches and in which nobody uses the service, a
transfer of a zone that is due, whatever the primary server answers, leaves a zone that is not due before the smaller of a
minute and its interval has passed, exactly when what it stores is accepted. `run_alone` makes a run of the manager of it. -/
theorem transfer_spacing_iff {db : Repo} {s : Snapshot} (hdb : db.Sound) (hstart : start lib db = .ok s) {es : List Event}
    {w : Manager} (hrun : run (Manager.step lib) { service := { shared := ⟨s, db, 0⟩ } } es = some w)
    (hidle : w.service.busy = none) (hz : z ∈ w.service.shared.published.list) {read : ℕ} (hdue : due z read = true)
    (hread : read ≤ x.now)
    (htakes : Takes lib w.service.shared { written lib z x with id := z.id, revision := z.revision + 1 } z.revision) :
    ∃ st', (performTransfer lib z).exec (alone lib) x w.service.shared = some ((), st') ∧
      ((∃ z' ∈ st'.published.list, z'.id = z.id ∧ Spaced x.now z') ↔ Recordable lib w.service.shared z x) := by
  have h := (run_manages (start_manages hdb hstart) hrun).1
  exact exec_spaced_iff (h.consistent hidle) hz hdue hread htakes

end

instance (lib : Miekg) (zs : List Zone) : Decidable (Accepts lib zs) :=
  decidable_of_iff ((compile lib zs).toOption.isSome = true) (by
    rw [Option.isSome_iff_exists]
    exact exists_congr fun s => ⟨eq_ok_of_toOption, fun h => by rw [h]; rfl⟩)

instance (lib : Miekg) (st : Store) (z : Zone) (x : Primary) : Decidable (Recordable lib st z x) :=
  decidable_of_iff (z.revision ≠ maxUint32 ∧
      (∀ b ∈ brought lib z x, Accepts lib (st.others z.id ++ [z.renewed (some b)])) ∧
      min 60 (interval z) * 10 ^ 9 ≤ seconds (wait z (brought lib z x).isSome))
    ⟨fun h => ⟨h.1, h.2.1, h.2.2⟩, fun h => ⟨h.revision, h.accepted, h.fits⟩⟩

namespace Sample

/-- A full transfer with a delegation. -/
def delegated : Answer where
  result := some {
    records := [⟨⟨"lan.".toList, classINET, 60⟩, .soa (soa 7)⟩, ⟨⟨"sub.lan.".toList, classINET, 60⟩, .ns "ns.lan.".toList⟩]
    soa := some (soa 7)
    errors := [] }
  err := none

/-- What the primary server sends at ten. -/
def sends (axfr : Answer) : Primary := ⟨refused, axfr, 10⟩

end Sample

open Velora.Zones.Sample in
theorem transfer_spacing_lan : ∃ w st', run (Manager.step lib) { service := { shared := ⟨{}, {}, 0⟩ } } created = some w ∧
    (performTransfer lib published).exec (alone lib) (sends (full 7 1)) w.service.shared = some ((), st') ∧
    ∃ z' ∈ st'.published.list, z'.id = 1 ∧ Spaced 10 z' := by
  have htest : (run (Manager.step lib) { service := { shared := ⟨{}, {}, 0⟩ } } created).any (fun w =>
      w.service.busy.isNone && decide (w.service.shared.published.list = [published]) &&
        decide (Takes lib w.service.shared { written lib published (sends (full 7 1)) with id := 1, revision := 2 } 1) &&
        decide (Recordable lib w.service.shared published (sends (full 7 1)))) = true := by
    decide +kernel
  obtain ⟨w, hw, hstate⟩ := (Option.any_eq_true _ _).1 htest
  simp only [Bool.and_eq_true, Option.isNone_iff_eq_none, decide_eq_true_eq] at hstate
  obtain ⟨⟨⟨hidle, hlist⟩, htakes⟩, hrecordable⟩ := hstate
  have hstart : start lib {} = .ok {} := rfl
  have hmem : published ∈ w.service.shared.published.list := by
    rw [hlist]
    exact List.mem_singleton_self published
  have hdue : due published 0 = true := by decide
  obtain ⟨st', hexec, hiff⟩ := transfer_spacing_iff (x := sends (full 7 1)) Repo.sound_empty hstart hw hidle hmem hdue
    (Nat.zero_le 10) htakes
  exact ⟨w, st', hw, hexec, hiff.2 hrecordable⟩

open Velora.Zones.Sample in
/-- A transfer with a delegation is tried again and again: what does not validate leaves no trace. -/
theorem transfer_spacing_delegated : ∃ w st',
    run (Manager.step lib) { service := { shared := ⟨{}, {}, 0⟩ } } created = some w ∧ w.service.busy = none ∧
    published ∈ w.service.shared.published.list ∧ due published 0 = true ∧
    Takes lib w.service.shared { written lib published (sends delegated) with id := 1, revision := 2 } 1 ∧
    (performTransfer lib published).exec (alone lib) (sends delegated) w.service.shared = some ((), st') ∧
    ∀ z' ∈ st'.published.list, z'.id = 1 → due z' 10 = true ∧ ¬ Spaced 10 z' := by
  have htest : (run (Manager.step lib) { service := { shared := ⟨{}, {}, 0⟩ } } created).any (fun w =>
      w.service.busy.isNone && decide (published ∈ w.service.shared.published.list) && due published 0 &&
        decide (Takes lib w.service.shared { written lib published (sends delegated) with id := 1, revision := 2 } 1) &&
        ((performTransfer lib published).exec (alone lib) (sends delegated) w.service.shared).any (fun r =>
          r.2.published.list.all (fun z' => due z' 10))) = true := by
    decide +kernel
  obtain ⟨w, hw, hstate⟩ := (Option.any_eq_true _ _).1 htest
  simp only [Bool.and_eq_true, Option.isNone_iff_eq_none, decide_eq_true_eq] at hstate
  obtain ⟨⟨⟨⟨hidle, hmem⟩, hdue⟩, htakes⟩, hend⟩ := hstate
  obtain ⟨⟨_, st'⟩, hexec, hall⟩ := (Option.any_eq_true _ _).1 hend
  rw [List.all_eq_true] at hall
  exact ⟨w, st', hw, hidle, hmem, hdue, htakes, hexec, fun z' hz' _ => ⟨hall z' hz', not_spaced (hall z' hz') (le_refl 10)⟩⟩

end Velora.Zones
