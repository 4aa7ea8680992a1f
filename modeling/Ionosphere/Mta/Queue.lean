import Ionosphere.Js.Text
import Ionosphere.Lib.Assoc
import Ionosphere.Lib.Statements

/-! The outbound queue and the table of suppressed recipients, and what a delivery worker makes
of the outcome of a session. The texts of errors and of notices are left out. -/
namespace Ionosphere.Mta

open Ionosphere.Js Ionosphere.Lib

abbrev Id := Text

/-- `MTA_QUEUE_STATUS`. -/
inductive QueueStatus where
  | queued
  | inFlight
  | done
  | bounced
  | deferred
  | canceled
  deriving DecidableEq

def QueueStatus.terminal (s : QueueStatus) : Bool := s = .done || s = .bounced

structure QueueRow where
  id : Id
  tenantId : Id
  blobId : Id
  envFrom : Text
  rcpt : Text
  rcptDomain : Text
  status : QueueStatus := .queued
  attempts : Nat := 0
  nextAttempt : Nat
  leaseUntil : Option Nat := none
  createdAt : Nat
  delayNotifiedAt : Option Nat := none
  dsnNotify : Option Text := none
  dsnOrcpt : Option Text := none
  deriving DecidableEq

/-- `SUPPRESSION_REASON`. -/
inductive SuppressionReason where
  | hardBounce
  | exhausted
  deriving DecidableEq

structure Suppression where
  tenantId : Id
  email : Text
  reason : SuppressionReason
  createdAt : Nat
  expiresAt : Option Nat
  deriving DecidableEq

structure Db where
  queue : List QueueRow := []
  suppressions : List Suppression := []
  deriving DecidableEq

def Suppression.key (s : Suppression) : Id × Text := (s.tenantId, s.email)

def SUPPRESSION_EXHAUSTED_TTL_MS : Nat := 7 * 24 * 60 * 60 * 1000

def suppressionExpiresAt (reason : SuppressionReason) (now : Nat) : Option Nat :=
  if reason = .exhausted then some (now + SUPPRESSION_EXHAUSTED_TTL_MS) else none

/-- `ACTIVE_SUPPRESSION_CLAUSE`. -/
def Suppression.active (s : Suppression) (now : Nat) : Bool := s.expiresAt.all fun e => now < e

def Db.row (id : Id) (db : Db) : Option QueueRow := Statements.row QueueRow.id id db.queue

/-- What a worker writes in one batch. -/
inductive Stmt where
  | done (id : Id)
  | bounced (id : Id) (attempts : Option Nat)
  | deferred (id : Id) (attempts nextAttempt : Nat)
  | delayNotified (id : Id) (now : Nat)
  | suppress (row : Suppression)
  deriving DecidableEq

/-- `WHERE id = ?`. -/
def byId (id : Id) (r : QueueRow) : Bool := r.id = id

def Stmt.change : Stmt → QueueRow → QueueRow
  | done _, r => { r with status := .done }
  | bounced _ attempts, r =>
    { r with status := .bounced, attempts := attempts.getD r.attempts }
  | deferred _ attempts nextAttempt, r =>
    { r with status := .deferred, attempts, nextAttempt, leaseUntil := none }
  | delayNotified _ now, r => { r with delayNotifiedAt := some now }
  | suppress _, r => r

def Stmt.target : Stmt → Option Id
  | done id | bounced id _ | deferred id _ _ | delayNotified id _ => some id
  | suppress _ => none

def Stmt.exec (s : Stmt) (db : Db) : Db :=
  match s with
  | suppress row =>
    { db with suppressions := Statements.insertIgnore Suppression.key row db.suppressions }
  | done id | bounced id _ | deferred id _ _ | delayNotified id _ =>
    { db with queue := Statements.update (byId id) s.change db.queue }

def batch (stmts : List Stmt) (db : Db) : Db := stmts.foldl (fun db s => s.exec db) db

inductive DsnKind where
  | failure
  | delay
  | success
  deriving DecidableEq

/-- `kind.toUpperCase()`. -/
def DsnKind.name : DsnKind → Text
  | failure => "FAILURE".toList
  | delay => "DELAY".toList
  | success => "SUCCESS".toList

def dsnWanted (u : CaseMap) (notify : Option Text) (kind : DsnKind) : Bool :=
  match notify with
  | none => kind ≠ .success
  | some notify =>
    if trim notify = [] then kind ≠ .success
    else
      let parts := (toUpperCase u notify).splitOn ','
      if parts.contains "NEVER".toList then false else parts.contains kind.name

/-- `DSN_ACTION`. -/
inductive DsnAction where
  | failed
  | delayed
  deriving DecidableEq

structure DsnRecipient where
  /-- The queue entry the notice is about; the message itself names the recipient. -/
  rowId : Id
  rcpt : Text
  action : DsnAction
  originalRecipient : Option Text
  deriving DecidableEq

def DsnAction.kind : DsnAction → DsnKind
  | failed => .failure
  | delayed => .delay

structure Dsn where
  tenantId : Id
  sendTo : Text
  recipients : List DsnRecipient
  deriving DecidableEq

structure WorkerOptions where
  /-- The hook that sends notices is there. -/
  dsn : Bool
  maxAttempts : Nat

def DELAY_NOTIFY_AFTER_MS : Nat := 4 * 60 * 60 * 1000

section

variable (u : CaseMap) (opts : WorkerOptions)

def noteDelayIfDue (row : QueueRow) (now : Nat) : Option DsnRecipient :=
  if !opts.dsn then none
  else if row.delayNotifiedAt.isSome then none
  else if trim row.envFrom = [] then none
  else if now < row.createdAt + DELAY_NOTIFY_AFTER_MS then none
  else if !dsnWanted u row.dsnNotify .delay then none
  else some ⟨row.id, row.rcpt, .delayed, row.dsnOrcpt⟩

/-- The notice to the sender of a group; none if that is the null sender. -/
def sendDsn (row : Option QueueRow) (recipients : List DsnRecipient) : Option Dsn :=
  match row with
  | none => none
  | some row =>
    if !opts.dsn || recipients.isEmpty then none
    else if trim row.envFrom = [] then none
    else some ⟨row.tenantId, row.envFrom, recipients⟩

structure RcptOutcome where
  code : Nat
  permanent : Bool
  deriving DecidableEq

structure SmtpClientResult where
  ok : Bool
  code : Nat
  permanent : Bool
  rcptResults : List (Text × RcptOutcome)
  deriving DecidableEq

/-- What is written and who is told about one row. -/
structure Effects where
  stmts : List Stmt := []
  suppressRows : List Suppression := []
  dsnRows : List DsnRecipient := []

def SmtpClientResult.rcptAccepted (result : SmtpClientResult) (rcpt : Text) : Bool :=
  (Assoc.get result.rcptResults rcpt).any fun rc => 200 ≤ rc.code && rc.code < 300

/-- Whether the stage that failed failed for good. -/
def SmtpClientResult.permanentFor (result : SmtpClientResult) (rcpt : Text) : Bool :=
  if result.rcptAccepted rcpt then result.permanent
  else ((Assoc.get result.rcptResults rcpt).map RcptOutcome.permanent).getD result.permanent

def failedRecipient (row : QueueRow) : List DsnRecipient :=
  if dsnWanted u row.dsnNotify .failure then [⟨row.id, row.rcpt, .failed, row.dsnOrcpt⟩] else []

/-- `backoffMs` of an interval with its jitter. -/
def backoffMs (delay : Nat) : Nat := max 1000 delay

def deferRow (row : QueueRow) (now delay : Nat) : Effects :=
  let note := noteDelayIfDue u opts row now
  { stmts := .deferred row.id (row.attempts + 1) (now + backoffMs delay) ::
      note.toList.map fun _ => .delayNotified row.id now
    dsnRows := note.toList }

/-- The part of `applyOutcome` that is about one row. -/
def outcomeOf (result : SmtpClientResult) (viaSmarthost : Bool) (now : Nat) (delay : Id → Nat)
    (row : QueueRow) : Effects :=
  if result.ok && result.rcptAccepted row.rcpt then { stmts := [.done row.id] }
  else if result.permanentFor row.rcpt then
    { stmts := [.bounced row.id none]
      suppressRows := if viaSmarthost then [] else
        [⟨row.tenantId, row.rcpt, .hardBounce, now, suppressionExpiresAt .hardBounce now⟩]
      dsnRows := failedRecipient u row }
  else if opts.maxAttempts ≤ row.attempts + 1 then
    { stmts := [.bounced row.id (some (row.attempts + 1))]
      suppressRows := if viaSmarthost then [] else
        [⟨row.tenantId, row.rcpt, .exhausted, now, suppressionExpiresAt .exhausted now⟩]
      dsnRows := failedRecipient u row }
  else deferRow u opts row now (delay row.id)

def settle (effects : QueueRow → Effects) (rows : List QueueRow) : List Stmt × Option Dsn :=
  (rows.flatMap (fun r => (effects r).stmts) ++
      rows.flatMap (fun r => (effects r).suppressRows.map Stmt.suppress),
    sendDsn opts rows.head? (rows.flatMap fun r => (effects r).dsnRows))

def applyOutcome (rows : List QueueRow) (result : SmtpClientResult) (viaSmarthost : Bool)
    (now : Nat) (delay : Id → Nat) : List Stmt × Option Dsn :=
  settle opts (outcomeOf u opts result viaSmarthost now delay) rows

/-- The part of `deferAll` that is about one row. A row that is given up here is reported
whatever its `NOTIFY` says. -/
def deferAllOf (now : Nat) (delay : Id → Nat) (row : QueueRow) : Effects :=
  if opts.maxAttempts ≤ row.attempts + 1 then
    { stmts := [.bounced row.id (some (row.attempts + 1))]
      dsnRows := [⟨row.id, row.rcpt, .failed, none⟩] }
  else deferRow u opts row now (delay row.id)

def deferAll (rows : List QueueRow) (now : Nat) (delay : Id → Nat) : List Stmt × Option Dsn :=
  settle opts (deferAllOf u opts now delay) rows

end

structure RcptDsn where
  notify : Option Text := none
  orcpt : Option Text := none

structure EnqueueInput where
  tenantId : Id
  blobId : Id
  envFrom : Text
  rcpts : List Text
  sendAt : Option Nat := none
  /-- `system.envFrom` is `"null-sender"`. -/
  nullSender : Bool := false
  perRcpt : List (Text × RcptDsn) := []

/-- The part of an address after the last `@`, in lower case. -/
def domainPart (u : CaseMap) (address : Text) : Text :=
  if address.contains '@' then
    toLowerCase u (address.reverse.takeWhile (· ≠ '@')).reverse
  else []

/-- Whether `enqueueMessage` skips a recipient. -/
def suppressed (u : CaseMap) (tenantId : Id) (rcpt : Text) (now : Nat) (db : Db) : Bool :=
  db.suppressions.any fun s =>
    s.tenantId = tenantId && s.email = toLowerCase u rcpt && s.active now

def EnqueueInput.row (u : CaseMap) (input : EnqueueInput) (now : Nat) (rcpt : Text) (id : Id) :
    QueueRow :=
  let dsn := Assoc.get input.perRcpt rcpt
  { id, tenantId := input.tenantId, blobId := input.blobId
    envFrom := if input.nullSender then [] else input.envFrom
    rcpt, rcptDomain := domainPart u rcpt
    nextAttempt := input.sendAt.getD now, createdAt := now
    dsnNotify := dsn.bind RcptDsn.notify, dsnOrcpt := dsn.bind RcptDsn.orcpt }

def EnqueueInput.rows (u : CaseMap) (input : EnqueueInput) (now : Nat) (ids : List Id) (db : Db) :
    List QueueRow :=
  (input.rcpts.filter fun rcpt => !suppressed u input.tenantId rcpt now db).zipWith
    (input.row u now) ids

/-- `enqueueMessage` behind its gates, which only refuse; with the recipients it skips. -/
def enqueueMessage (u : CaseMap) (input : EnqueueInput) (now : Nat) (ids : List Id) (db : Db) :
    Db × List Text :=
  ({ db with queue := db.queue ++ input.rows u now ids db },
    input.rcpts.filter fun rcpt => suppressed u input.tenantId rcpt now db)

end Ionosphere.Mta
