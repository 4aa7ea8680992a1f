import Ionosphere.Lib.Leases
import Ionosphere.Lib.Schedule
import Ionosphere.Mta.Queue

/-! Delivery workers on one queue. A worker reads the rows that are due, leases them one by one
in one batch, and then sends group after group; the outcome of a send is written whenever the
session ends. Everything else that touches the queue may come in between. -/
namespace Ionosphere.Mta

open Ionosphere.Js Ionosphere.Lib

def LEASE_MS : Nat := 5 * 60 * 1000

/-- `(status IN (queued, deferred) AND next_attempt <= ?) OR (status = inFlight AND
lease_until < ?)`. -/
def due (now : Nat) (r : QueueRow) : Bool :=
  ((r.status = .queued || r.status = .deferred) && r.nextAttempt ≤ now) ||
    (r.status = .inFlight && r.leaseUntil.any fun e => e < now)

/-- What rows of one session share: `groupKey` joins it with NULs, which no part contains. -/
def groupKey (r : QueueRow) : Id × Text × Text × Id := (r.tenantId, r.rcptDomain, r.envFrom, r.blobId)

def addToGroup (row : QueueRow) : List (List QueueRow) → List (List QueueRow)
  | [] => [[row]]
  | g :: groups =>
    if g.head?.map groupKey = some (groupKey row) then (g ++ [row]) :: groups
    else g :: addToGroup row groups

def grouped (rows : List QueueRow) : List (List QueueRow) :=
  rows.foldl (fun groups row => addToGroup row groups) []

def leaseBatch (now : Nat) : List QueueRow → List QueueRow → List QueueRow × List QueueRow
  | [], queue => (queue, [])
  | row :: rows, queue =>
    let p := fun r : QueueRow => byId row.id r && due now r
    let rest := leaseBatch now rows (Statements.update p
      (fun r => { r with status := .inFlight, leaseUntil := some (now + LEASE_MS) }) queue)
    (rest.1, if queue.countP p = 1 then row :: rest.2 else rest.2)

/-- One tick of a worker. -/
structure Worker where
  now : Nat
  /-- The rows read, until they are leased. -/
  selected : List QueueRow
  /-- The groups still to be sent, or what is left of them. -/
  groups : List (List QueueRow) := []
  /-- The rows of the sessions going on. -/
  sending : List (List QueueRow) := []
  /-- Notices still to be sent. -/
  notices : List Dsn := []
  deriving DecidableEq

structure World where
  time : Nat := 0
  db : Db := {}
  /-- All rows there have been, as they were entered. -/
  entered : List QueueRow := []
  workers : List Worker := []
  /-- The notices that were sent. -/
  dsns : List Dsn := []
  deriving DecidableEq

inductive Move where
  | tick (ms : Nat)
  | enqueueMessage (input : EnqueueInput) (ids : List Id)
  /-- The commands of the administrator, and rows that are deleted for good. -/
  | queueRetry (tenantId : Id) (id : Option Id)
  | queueCancel (tenantId id : Id)
  | suppressionRemove (tenantId : Id) (email : Text)
  | deleteRows (ids : List Id)
  /-- A worker reads the rows that are due, `picked` of them. -/
  | runTick (picked : List Id)
  | lease (j : Nat)
  /-- A session with the first rows of a group starts. -/
  | send (j i cap : Nat)
  /-- It ends, with an answer or without. -/
  | outcome (j i : Nat) (result : SmtpClientResult) (viaSmarthost : Bool) (delay : Id → Nat)
  | noAnswer (j i : Nat) (delay : Id → Nat)
  /-- A group fails before its first session: no relay, no MX, no blob. -/
  | deferGroup (j i : Nat) (delay : Id → Nat)
  /-- A group ends with an exception. -/
  | skipGroup (j i : Nat)
  | sendDsn (j : Nat)
  | crash (j : Nat)

def Move.ofWorker : Move → Bool
  | tick _ | enqueueMessage _ _ | queueRetry _ _ | queueCancel _ _ | suppressionRemove _ _
  | deleteRows _ => false
  | _ => true

section

variable (u : CaseMap) (opts : WorkerOptions)

def retryRow (tenantId : Id) (id : Option Id) (r : QueueRow) : Bool :=
  r.tenantId = tenantId && id.all (fun id => r.id = id) &&
    (r.status = .deferred || r.status = .bounced)

def cancelRow (tenantId id : Id) (r : QueueRow) : Bool :=
  r.id = id && r.tenantId = tenantId &&
    (r.status = .queued || r.status = .deferred || r.status = .bounced)

def deletable (now : Nat) (ids : List Id) (r : QueueRow) : Bool :=
  ids.contains r.id && (r.status ≠ .inFlight || r.leaseUntil.all fun e => e < now)

def queueRetry (tenantId : Id) (id : Option Id) (now : Nat) (db : Db) : Db :=
  { db with
    queue := Statements.update (retryRow tenantId id)
      (fun r => { r with status := .queued, nextAttempt := now }) db.queue }

def queueCancel (tenantId id : Id) (db : Db) : Db :=
  { db with
    queue := Statements.update (cancelRow tenantId id) (fun r => { r with status := .canceled })
      db.queue }

def suppressionRemove (tenantId : Id) (email : Text) (db : Db) : Db :=
  { db with
    suppressions := Statements.delete
      (fun s => s.tenantId = tenantId && s.email = toLowerCase u email) db.suppressions }

def deleteRows (ids : List Id) (now : Nat) (db : Db) : Db :=
  { db with queue := Statements.delete (deletable now ids) db.queue }

def workerStep (j : Nat) (w : World) (f : Worker → Option (Worker × List Stmt)) : Option World :=
  (w.workers[j]?).bind fun x => (f x).map fun out =>
    { w with db := batch out.2 w.db, workers := w.workers.set j out.1 }

theorem group_of_workerStep {w w' : World} {j i : Nat} {part : Worker → List (List QueueRow)}
    {out : Worker → List QueueRow → Worker × List Stmt}
    (hw : workerStep j w (fun x => ((part x)[i]?).map (out x)) = some w') :
    ∃ x g, w.workers[j]? = some x ∧ (part x)[i]? = some g ∧
      w' = { w with db := batch (out x g).2 w.db, workers := w.workers.set j (out x g).1 } := by
  obtain ⟨x, hx, hw⟩ := Option.bind_eq_some_iff.mp hw
  obtain ⟨r, hout, rfl⟩ := Option.map_eq_some_iff.mp hw
  obtain ⟨g, hg, rfl⟩ := Option.map_eq_some_iff.mp hout
  exact ⟨x, g, hx, hg, rfl⟩

def step : Move → World → Option World
  | .tick ms, w => some { w with time := w.time + ms }
  | .enqueueMessage input ids, w =>
    -- `ulid` gives new ids.
    if ids.Nodup ∧ (∀ id ∈ ids, id ∉ w.entered.map QueueRow.id) then
      some { w with db := (Mta.enqueueMessage u input w.time ids w.db).1
                    entered := w.entered ++ input.rows u w.time ids w.db }
    else none
  | .queueRetry tenantId id, w => some { w with db := queueRetry tenantId id w.time w.db }
  | .queueCancel tenantId id, w => some { w with db := queueCancel tenantId id w.db }
  | .suppressionRemove tenantId email, w =>
    some { w with db := suppressionRemove u tenantId email w.db }
  | .deleteRows ids, w => some { w with db := deleteRows ids w.time w.db }
  | .runTick picked, w => some { w with
      workers := w.workers ++ [{ now := w.time
                                 selected := w.db.queue.filter fun r =>
                                  due w.time r && picked.contains r.id }] }
  | .lease j, w => (w.workers[j]?).map fun x =>
    let out := leaseBatch x.now x.selected w.db.queue
    { w with
      db := { w.db with queue := out.1 }
      workers := w.workers.set j { x with selected := [], groups := x.groups ++ grouped out.2 } }
  | .send j i cap, w => workerStep j w fun x => (x.groups[i]?).map fun g =>
    ({ x with groups := x.groups.set i (g.drop cap), sending := x.sending ++ [g.take cap] }, [])
  | .outcome j i result viaSmarthost delay, w => workerStep j w fun x => (x.sending[i]?).map fun g =>
    let out := applyOutcome u opts g result viaSmarthost w.time delay
    ({ x with sending := x.sending.eraseIdx i, notices := x.notices ++ out.2.toList }, out.1)
  | .noAnswer j i delay, w => workerStep j w fun x => (x.sending[i]?).map fun g =>
    let out := deferAll u opts g w.time delay
    ({ x with sending := x.sending.eraseIdx i, notices := x.notices ++ out.2.toList }, out.1)
  | .deferGroup j i delay, w => workerStep j w fun x => (x.groups[i]?).map fun g =>
    let out := deferAll u opts g w.time delay
    ({ x with groups := x.groups.eraseIdx i, notices := x.notices ++ out.2.toList }, out.1)
  | .skipGroup j i, w => workerStep j w fun x =>
    some ({ x with groups := x.groups.eraseIdx i }, [])
  | .sendDsn j, w => (w.workers[j]?).bind fun x => x.notices.head?.map fun dsn =>
    { w with workers := w.workers.set j { x with notices := x.notices.tail }
             dsns := w.dsns ++ [dsn] }
  | .crash j, w => some { w with workers := w.workers.eraseIdx j }

end

end Ionosphere.Mta
