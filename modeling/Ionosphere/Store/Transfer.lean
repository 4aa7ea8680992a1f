import Ionosphere.Store.MessageOps

/-! COPY and MOVE of several messages in one batch. COPY makes new messages, MOVE
relocates memberships. -/
namespace Ionosphere.Store

open Ionosphere.Js Ionosphere.Lib

inductive TransferOp where
  | copy
  | move
  deriving DecidableEq

/-- What happens to one message of the list. -/
inductive Transfer where
  /-- In the target already, under `uid`. -/
  | present (m : MessageRow) (source : Membership) (uid : Nat)
  | moved (m : MessageRow) (source : Membership) (uid : Nat)
  | copied (m : MessageRow) (uid : Nat) (copyId : Id)

/-- The rows a transfer works on. -/
structure TransferRows where
  messages : List MessageRow
  sources : List Membership
  /-- Memberships in the target; only a move looks. -/
  existing : List Membership
  keywords : List Keyword
  addresses : List Address
  headers : List Header

def TransferRows.seen (rows : TransferRows) (id : Id) : Bool := rows.keywords.contains ⟨id, seenKeyword⟩

/-- The list in order, with the next uid and the next id to draw; the result ends
with the uid after the last one given out. -/
def transferLoop (op : TransferOp) (rows : TransferRows) (ulid : Nat → Id) :
    Nat → Nat → List Id → List Transfer × Nat
  | cursor, _, [] => ([], cursor)
  | cursor, n, id :: ids =>
    match rows.messages.find? fun m => m.id = id, rows.sources.find? fun r => r.messageId = id with
    | some m, some source =>
      match rows.existing.find? fun r => r.messageId = id with
      | some e =>
        let r := transferLoop op rows ulid cursor n ids
        (.present m source e.uid :: r.1, r.2)
      | none =>
        match op with
        | .move =>
          let r := transferLoop op rows ulid (cursor + 1) n ids
          (.moved m source cursor :: r.1, r.2)
        | .copy =>
          let r := transferLoop op rows ulid (cursor + 1) (n + 1) ids
          (.copied m cursor (ulid n) :: r.1, r.2)
    | _, _ => transferLoop op rows ulid cursor n ids

namespace Transfer

def pair : Transfer → Id × Nat
  | present m _ uid => (m.id, uid)
  | moved m _ uid => (m.id, uid)
  | copied m uid _ => (m.id, uid)

def leaves : Transfer → Option (MessageRow × Membership)
  | present m source uid => if source.uid ≠ uid then some (m, source) else none
  | moved m source _ => some (m, source)
  | copied _ _ _ => none

def enters : Transfer → Option (MessageRow × Id × Nat)
  | present _ _ _ => none
  | moved m _ uid => some (m, m.id, uid)
  | copied m uid copyId => some (m, copyId, uid)

def copies : Transfer → Option (MessageRow × Id)
  | copied m _ copyId => some (m, copyId)
  | _ => none

end Transfer

def sizes (ms : List MessageRow) : Nat := (ms.map (·.sizeBytes)).sum

def unseen (rows : TransferRows) (ms : List MessageRow) : Int :=
  (ms.map fun m => unreadOf (rows.seen m.id)).sum

def copyRow (next : Nat) (p : MessageRow × Id) : MessageRow := { p.1 with id := p.2, modseq := next }

def transferStmts (next now : Nat) (fromId toId : Id) (rows : TransferRows) (ids : List Id)
    (transfers : List Transfer) (cursor : Nat) : List Stmt :=
  let leaving := transfers.filterMap (·.leaves)
  let entering := transfers.filterMap (·.enters)
  let copies := transfers.filterMap (·.copies)
  let touched := (leaving.map (·.1.id)).eraseDups
  let threadIds := (ids.filterMap fun id =>
    (rows.messages.find? fun m => m.id = id).map (·.threadId)).eraseDups
  [Stmt.claim next] ++ leaving.map (fun p => Stmt.deleteMemberships fromId [p.2.uid]) ++
    multiRow 14 .insertMessages (copies.map (copyRow next)) ++
    multiRow 5 .insertBlobRefs (copies.map fun p => ⟨p.1.blobId, p.2⟩) ++
    multiRow 3 .insertKeywords (copies.flatMap fun p =>
      (rows.keywords.filter fun k => k.messageId = p.1.id).map fun k => ⟨p.2, k.keyword⟩) ++
    multiRow 6 .insertAddresses (copies.flatMap fun p =>
      (rows.addresses.filter fun a => a.messageId = p.1.id).map fun a => { a with messageId := p.2 }) ++
    multiRow 8 .insertHeaders (copies.flatMap fun p =>
      (rows.headers.filter fun h => h.messageId = p.1.id).map fun h => { h with messageId := p.2 }) ++
    multiRow 5 .insertMemberships (entering.map fun p => ⟨toId, p.2.2, p.2.1, now, false⟩) ++
    multiRow 4 .insertExpunged (leaving.map fun p => ⟨fromId, p.2.uid, next, now⟩) ++
    bumpMessages next touched ++ touched.map (log next now .email .updated) ++
    copies.map (fun p => log next now .email .created p.2) ++
    threadIds.map (log next now .thread .updated) ++
    (if entering = [] then []
    else
      [Stmt.updateMailbox toId
          { uidnext := some cursor, highestmodseq := next, totalCount := entering.length
            totalBytes := sizes (entering.map (·.1))
            unreadCount := unseen rows (entering.map (·.1)) },
        log next now .mailbox .updated toId]) ++
    (if leaving = [] then []
    else
      [Stmt.updateMailbox fromId
          { highestmodseq := next, totalCount := -leaving.length
            totalBytes := -sizes (leaving.map (·.1))
            unreadCount := -unseen rows (leaving.map (·.1)) },
        log next now .mailbox .updated fromId]) ++
    [Stmt.updateAccount
      { modseq := next, email := true, mailbox := true, thread := true
        usedBytes := sizes (copies.map (·.1)), messageCount := copies.length }]

/-- Only when `op` is the one asked for. -/
def readFor {ρ : Type} (wanted op : TransferOp) (read : Reads (List ρ)) : Reads (List ρ) :=
  if op = wanted then read else pure []

def membershipsIn (mailboxId : Id) (part : List Id) (db : Db) : List Membership :=
  db.memberships.filter fun r => r.mailboxId = mailboxId && part.contains r.messageId

def copyOrMoveBatchAttempt (ids : List Id) (fromId toId : Id) (op : TransferOp) (env : Env) :
    Reads (Plan (List (Id × Nat))) := do
  let acct ← mustGetAccount
  let target ← Reads.select (activeMailbox toId)
  match target with
  | none => Reads.throw (storeError "target mailbox not found: " toId)
  | some target =>
    let messages ← queryInChunks 1 ids fun part db => db.messages.filter fun m => part.contains m.id
    let sources ← queryInChunks 1 ids (membershipsIn fromId)
    if op = .move ∧ fromId = toId then
      pure { result := ids.filterMap fun id =>
        (sources.find? fun r => r.messageId = id).map fun r => (id, r.uid) }
    else do
      let existing ← readFor .move op (queryInChunks 1 ids (membershipsIn toId))
      let keywords ← queryInChunks 1 ids fun part db =>
        db.keywords.filter fun k => part.contains k.messageId
      let addresses ← readFor .copy op (queryInChunks 1 ids fun part db =>
        db.addresses.filter fun a => part.contains a.messageId)
      let headers ← readFor .copy op (queryInChunks 0 ids fun part db =>
        db.headers.filter fun h => part.contains h.messageId)
      let rows : TransferRows := ⟨messages, sources, existing, keywords, addresses, headers⟩
      let r := transferLoop op rows env.ulid target.uidnext 0 ids
      let copies := r.1.filterMap (·.copies)
      if r.1.filterMap (·.leaves) = [] ∧ copies = [] then pure { result := r.1.map (·.pair) }
      else do
        if copies ≠ [] then assertQuota acct (sizes (copies.map (·.1)))
        pure
          { stmts := transferStmts (acct.modseq + 1) env.now fromId toId rows ids r.1 r.2
            result := r.1.map (·.pair) }

end Ionosphere.Store
