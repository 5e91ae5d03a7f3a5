import Velora.Zones.Service
import Velora.Zones.ZoneFile

/-!
# Secondary zones

`internal/zones/secondary.go`: the manager finds the secondary zones that are due, and transfers each in a goroutine of its
own, which asks the primary server and then writes what it has made of its copy of the zone through the zone service. Between
the two other calls change the zone. The primary server answers whatever it likes.
-/

namespace Velora.Zones

open Velora.Lib Velora.Lib.Text Velora.Lib.Ip Velora.Wire Velora.Dns

/-! ### What a transfer brings -/

/-- `TransferResult`. -/
structure TransferResult where
  records : List RR
  soa : Option SOA
  errors : List Str
  deriving DecidableEq

/-- What `AXFR` and `IXFR` return. -/
structure Answer where
  result : Option TransferResult
  err : Option Str
  deriving DecidableEq

section

variable (lib : Miekg)

def Record.capped (r : Record) : Record := { r with ttl := if r.ttl > 86400 then 86400 else r.ttl }

/-- The records that are dropped. -/
def dropped (rr : RR) : Bool := rr.rrtype = typeSOA || rr.rrtype = typeOPT

/-- `transferRecords`. -/
def transferRecords : List RR → Except Err (List Record)
  | [] => .ok []
  | rr :: rrs =>
    if dropped rr then transferRecords rrs
    else do
      let record ← importRecord lib rr
      let result ← transferRecords rrs
      return record.capped :: result

/-! ### A transfer -/

/-- What a transfer does one after the other. -/
inductive TransferOp where
  /-- the check of `startTransfer` that no transfer of the zone is under way -/
  | start (id : ℤ)
  | ixfr (zone primaryAddr : Str) (serial : UInt32) (tsigKeyName : Str)
  | axfr (zone primaryAddr tsigKeyName : Str)
  /-- `time.Now()` -/
  | now
  /-- `m.service.Update`, which starts when it gets the mutex -/
  | update (id : ℤ) (revision : UInt32) (z : Zone)
  /-- `m.service.Update` has returned -/
  | await
  /-- `delete(m.transfers, z.ID)` -/
  | stop (id : ℤ)

abbrev TransferAns : TransferOp → Type
  | .start _ => Bool
  | .ixfr _ _ _ _ => Answer
  | .axfr _ _ _ => Answer
  | .now => ℕ
  | .update _ _ _ => Unit
  | .await => Unit
  | .stop _ => Unit

abbrev Task := Prog TransferOp TransferAns Unit

/-- `time.Duration(n) * time.Second`, in nanoseconds. -/
def seconds (n : ℤ) : ℤ := (n * 10 ^ 9).bmod (2 ^ 64)

/-- `updateTransferState`. -/
def updateTransferState (z : Zone) (success : Bool) (soa : Option SOA) (records : List Record) : Task := do
  let now : ℕ ← Prog.ask TransferOp.now
  let z := { z with lastTransferAt := some now }
  let z :=
    match soa with
    | none => z
    | some soa => { z with lastTransferSerial := soa.serial, primaryNS := soa.ns, contact := soa.mbox, records }
  let interval := if z.transferInterval ≤ 0 then 3600 else z.transferInterval
  let wait := if success then interval else if interval / 6 < 60 then 60 else interval / 6
  let z := { z with nextRefreshAt := some (now + seconds wait).toNat }
  let _ : Unit ← Prog.ask (TransferOp.update z.id z.revision z)
  Prog.ask TransferOp.await

/-- The incremental transfer has said that the serial number is the last one. -/
def current (z : Zone) (a : Answer) : Option SOA :=
  match a.err, a.result with
  | none, some r =>
    if r.errors = [] then r.soa.filter (fun soa => soa.serial = z.lastTransferSerial) else none
  | _, _ => none

/-- The second half of `performTransfer`, after the full transfer. -/
def concludeTransfer (z : Zone) (a : Answer) : Task :=
  if a.err.isSome then updateTransferState z false none []
  else
    match a.result with
    | none => updateTransferState z false none []
    | some result =>
      if result.errors ≠ [] then updateTransferState z false none []
      else
        match transferRecords lib result.records, result.soa with
        | .ok records, some soa => updateTransferState z true (some soa) records
        | _, _ => updateTransferState z false none []

/-- `performTransfer`. -/
def performTransfer (z : Zone) : Task := do
  if z.lastTransferSerial > 0 then
    let a : Answer ← Prog.ask (TransferOp.ixfr z.name z.primaryAddress z.lastTransferSerial z.transferTSIGKey)
    match current z a with
    | some soa => updateTransferState z true (some soa) z.records
    | none =>
      let a : Answer ← Prog.ask (TransferOp.axfr z.name z.primaryAddress z.transferTSIGKey)
      concludeTransfer lib z a
  else
    let a : Answer ← Prog.ask (TransferOp.axfr z.name z.primaryAddress z.transferTSIGKey)
    concludeTransfer lib z a

/-- `startTransfer`. -/
def startTransfer (z : Zone) : Task := do
  let started : Bool ← Prog.ask (TransferOp.start z.id)
  if started then
    performTransfer lib z
    Prog.ask (TransferOp.stop z.id)
  else return ()

/-- The zones `checkTransfers` starts a transfer for. -/
def due (z : Zone) (now : ℕ) : Bool :=
  z.zoneType = "secondary".toList && z.primaryAddress ≠ [] && z.nextRefreshAt.all (fun t => !decide (now < t))

/-! ### The manager and the service -/

/-- The answers a transfer has got. -/
structure Heard where
  ixfr : Option Answer := none
  axfr : Option Answer := none

/-- Who makes a call: the transfer of a thread, with its copy of the zone and the answers it has got. -/
structure Report where
  thread : ℕ
  zone : Zone
  heard : Heard

/-- A call of the service, by a transfer or by somebody else. -/
structure Request where
  call : Call
  transfer : Option Report := none

/-- A transfer: the copy of the zone that `List` returned, the answers it has got, and what it still has to do. -/
structure Transfer where
  zone : Zone
  heard : Heard := {}
  task : Task

structure Manager where
  service : Monitor Store Request Op Ans (Except Err Zone)
  /-- the keys of `m.transfers` -/
  transfers : List ℤ := []
  threads : List Transfer := []

def serviceStep : Monitor Store Request Op Ans (Except Err Zone) → Monitor.Event Request (Option Err) →
    Option (Monitor Store Request Op Ans (Except Err Zone)) :=
  Monitor.step (fun r => r.call.body lib) act

/-- What the outside gives a transfer that asks it. -/
structure Choice where
  answer : Answer
  now : ℕ

/-- The call under way is the one of this thread. -/
def Manager.waits (w : Manager) (i : ℕ) : Bool :=
  match w.service.busy with
  | some (r, _, _) => r.transfer.any (fun t => t.thread == i)
  | none => false

/-- One step of the transfer in thread `i`: what it gets, and what it has heard then. -/
def Manager.act (i : ℕ) (zone : Zone) (heard : Heard) (w : Manager) (x : Choice) :
    (op : TransferOp) → Option (TransferAns op × Heard × Manager)
  | .start id =>
    if w.transfers.contains id then some (false, heard, w)
    else some (true, heard, { w with transfers := id :: w.transfers })
  | .ixfr _ _ _ _ => some (x.answer, { heard with ixfr := some x.answer }, w)
  | .axfr _ _ _ => some (x.answer, { heard with axfr := some x.answer }, w)
  | .now => some (x.now, heard, w)
  | .update id revision z =>
    (serviceStep lib w.service (.enter ⟨.update id revision z, some ⟨i, zone, heard⟩⟩)).map (fun service =>
      ((), heard, { w with service }))
  | .await => if w.waits i then none else some ((), heard, w)
  | .stop id => some ((), heard, { w with transfers := w.transfers.erase id })

inductive Event where
  /-- somebody else calls the service -/
  | edit (c : Call)
  /-- the call under way takes a step, or is done -/
  | turn (x : Option Err)
  | leave
  /-- `checkTransfers` reads the zones -/
  | check (now : ℕ)
  /-- a transfer takes a step -/
  | transfer (i : ℕ) (x : Choice)

def Manager.step (w : Manager) : Event → Option Manager
  | .edit c => (serviceStep lib w.service (.enter { call := c })).map (fun service => { w with service })
  | .turn x => (serviceStep lib w.service (.turn x)).map (fun service => { w with service })
  | .leave => (serviceStep lib w.service .leave).map (fun service => { w with service })
  | .check now =>
    let zones := w.service.shared.published.list.filter (fun z => due z now)
    some { w with threads := w.threads ++ zones.map (fun z => { zone := z, task := startTransfer lib z }) }
  | .transfer i x =>
    match w.threads[i]? with
    | some ⟨zone, heard, .call op k⟩ =>
      (w.act lib i zone heard x op).map (fun r =>
        { r.2.2 with threads := w.threads.set i ⟨zone, r.2.1, k r.1⟩ })
    | _ => none

end

end Velora.Zones
