import Ionosphere.Lib.Assoc
import Ionosphere.Store.MailboxOps

/-! Messages: append, keywords, `\Deleted`, expunge, copy, move and destroy. -/
namespace Ionosphere.Store

open Ionosphere.Js Ionosphere.Lib

def seenKeyword : Text := "$seen".toList

/-- `SELECT 1 … WHERE message_id = ? AND keyword = '$seen'`. -/
def hasSeen (id : Id) (db : Db) : Bool := db.keywords.contains ⟨id, seenKeyword⟩

/-- `SELECT message_id … WHERE keyword = '$seen' AND message_id IN (…)`. -/
def seenIds (ids : List Id) (db : Db) : List Id :=
  (db.keywords.filter fun k => k.keyword = seenKeyword && ids.contains k.messageId).map (·.messageId)

def unreadOf (seen : Bool) : Int := if seen then 0 else 1

def membershipOf (mailboxId messageId : Id) (db : Db) : Option Membership :=
  db.memberships.find? fun r => r.mailboxId = mailboxId && r.messageId = messageId

/-- `multiRowInsertStatements`: as many rows a statement as its columns allow. -/
def multiRow {ρ : Type} (columns : Nat) (stmt : List ρ → Stmt) (rows : List ρ) : List Stmt :=
  (Table.chunk (rowsPerStatement columns) rows).map stmt

/-- `assertQuota`; a quota of 0 is none. -/
def assertQuota (acct : AccountSnapshot) (addBytes : Nat) : Reads Unit :=
  Reads.check (!(0 < acct.quotaBytes && (acct.quotaBytes : Int) < acct.usedBytes + addBytes))
    (.quota ("quota exceeded: account=".toList ++ acct.id))

structure AppendAddress where
  kind : Nat
  pos : Nat
  name : Option Text
  email : Text

structure HeaderProjection where
  name : Text
  occurrence : Nat
  kind : Text
  displayValue : Text
  sortValue : Text
  dateValue : Option Int
  addressValue : Option Text

structure AppendInput where
  mailboxIds : List Id
  blobId : Id
  blobGeneration : Nat := 0
  sizeBytes : Nat
  receivedAt : Nat
  envelope : Envelope := {}
  addresses : List AppendAddress := []
  threadRefHashes : List Text := []
  keywords : List Text := []
  headerProjections : List HeaderProjection := []

/-- A message of a group, with its ids, its thread and its uid in each mailbox. -/
structure Appended where
  input : AppendInput
  messageId : Id
  threadId : Id
  isNew : Bool
  uids : List (Id × Nat)

def oldestThread (hashes : List Text) (db : Db) : Option Id :=
  ((db.threadRefs.filter fun r => hashes.contains r.refHash).foldl
    (fun (best : Option ThreadRef) r => match best with
      | none => some r
      | some b => some (if r.createdAt < b.createdAt then r else b)) none).map (·.threadId)

def resolveThread (hashes : List Text) (fresh : Id) : Reads (Id × Bool) :=
  if hashes.eraseDups = [] then pure (fresh, true)
  else do
    let oldest ← Reads.select (oldestThread hashes.eraseDups)
    match oldest with
    | some id => pure (id, false)
    | none => pure (fresh, true)

/-- Threads of the same group are not in the database yet: `pending` has them. -/
def resolveThreadInGroup (hashes : List Text) (fresh : Id) (pending : List (Text × Id)) :
    Reads ((Id × Bool) × List (Text × Id)) :=
  match hashes.eraseDups.findSome? (Assoc.get pending) with
  | some id => pure ((id, false), pending)
  | none => do
    let resolved ← resolveThread hashes fresh
    pure (resolved, hashes.eraseDups.foldl (fun p h => Assoc.set p h resolved.1) pending)

def allocate (cursor : List (Id × Nat)) : List Id → List (Id × Nat) × List (Id × Nat)
  | [] => ([], cursor)
  | b :: bs =>
    let uid := (Assoc.get cursor b).getD 0
    let r := allocate (Assoc.set cursor b (uid + 1)) bs
    ((b, uid) :: r.1, r.2)

def appendLoop (env : Env) : Nat → List (Id × Nat) → List (Text × Id) → List AppendInput →
    Reads (List Appended × List (Id × Nat))
  | _, cursor, _, [] => pure ([], cursor)
  | n, cursor, pending, input :: inputs => do
    let thread ← resolveThreadInGroup input.threadRefHashes (env.ulid (2 * n)) pending
    let alloc := allocate cursor input.mailboxIds.eraseDups
    let rest ← appendLoop env (n + 1) alloc.2 thread.2 inputs
    pure (⟨input, env.ulid (2 * n + 1), thread.1.1, thread.1.2, alloc.1⟩ :: rest.1, rest.2)

/-- The active mailboxes of the list with their `uidnext`; all must be there. -/
def getMailboxesForWrite (ids : List Id) : Reads (List (Id × Nat)) := do
  Reads.check (!ids.isEmpty) (storeError "mailboxIds가 비어있음" [])
  let rows ← queryInChunks 1 ids fun part db =>
    db.mailboxes.filter fun b => b.status = .active && part.contains b.id
  Reads.check (ids.all fun id => rows.any fun b => b.id = id)
    (storeError "mailbox not found or inactive: "
      ((ids.find? fun id => !rows.any fun b => b.id = id).getD []))
  pure (ids.map fun id => (id, ((rows.find? fun b => b.id = id).map (·.uidnext)).getD 0))

section

variable (u : CaseMap)

def lowerSet (keywords : List Text) : List Text := (keywords.map (toLowerCase u)).eraseDups

def Appended.seen (a : Appended) : Bool := (lowerSet u a.input.keywords).contains seenKeyword

def Appended.row (next : Nat) (a : Appended) : MessageRow :=
  { id := a.messageId, blobId := a.input.blobId, threadId := a.threadId, modseq := next
    sizeBytes := a.input.sizeBytes, receivedAt := a.input.receivedAt, envelope := a.input.envelope }

def Appended.memberships (now : Nat) (a : Appended) : List Membership :=
  a.uids.map fun p => ⟨p.1, p.2, a.messageId, now, false⟩

def Appended.keywordRows (a : Appended) : List Keyword :=
  (lowerSet u a.input.keywords).map fun k => ⟨a.messageId, k⟩

def Appended.stmts (next now : Nat) (a : Appended) : List Stmt :=
  [Stmt.insertBlob ⟨a.input.blobId, a.input.sizeBytes, .live, a.input.blobGeneration, none⟩,
    Stmt.reviveBlob a.input.blobId a.input.blobGeneration,
    Stmt.insertBlobRefs [⟨a.input.blobId, a.messageId⟩], Stmt.insertMessages [a.row next]] ++
    multiRow 6 .insertAddresses
      (a.input.addresses.map fun x => ⟨a.messageId, x.kind, x.pos, x.name, x.email⟩) ++
    multiRow 3 .insertKeywords (a.keywordRows u) ++
    multiRow 8 .insertHeaders (a.input.headerProjections.map fun h =>
      ⟨a.messageId, h.occurrence, h.name, h.kind, h.displayValue, h.sortValue, h.dateValue,
        h.addressValue⟩) ++
    a.input.threadRefHashes.eraseDups.map (fun h => Stmt.insertThreadRef ⟨h, a.threadId, now⟩) ++
    multiRow 5 .insertMemberships (a.memberships now) ++
    [log next now .email .created a.messageId]

/-- The messages of the group that go to mailbox `b`. -/
def into (b : Id) (group : List Appended) : List Appended :=
  group.filter fun a => (a.uids.map (·.1)).contains b

def groupMailboxes (group : List Appended) : List Id :=
  (group.flatMap fun a => a.uids.map (·.1)).eraseDups

def groupThreads (group : List Appended) : List Id := (group.map (·.threadId)).eraseDups

def appendStmts (next now : Nat) (group : List Appended) (cursor : List (Id × Nat)) : List Stmt :=
  [Stmt.claim next] ++ group.flatMap (Appended.stmts u next now) ++
    (groupMailboxes group).map (log next now .mailbox .updated) ++
    (groupThreads group).map (fun t => log next now .thread
      (if group.any fun a => a.threadId = t && a.isNew then .created else .updated) t) ++
    (groupMailboxes group).map (fun b => Stmt.updateMailbox b
      { uidnext := some ((Assoc.get cursor b).getD 0), highestmodseq := next
        totalCount := (into b group).length
        totalBytes := (((into b group).map (·.input.sizeBytes)).sum : Nat)
        unreadCount := ((into b group).map fun a => unreadOf (a.seen u)).sum }) ++
    [Stmt.updateAccount
      { modseq := next, email := true, mailbox := true, thread := true
        usedBytes := ((group.map (·.input.sizeBytes)).sum : Nat), messageCount := group.length }]

def appendMessagesAttempt (inputs : List AppendInput) (env : Env) :
    Reads (Plan (List Appended)) := do
  let acct ← mustGetAccount
  assertQuota acct (inputs.map (·.sizeBytes)).sum
  let cursor ← getMailboxesForWrite (inputs.flatMap (·.mailboxIds)).eraseDups
  let r ← appendLoop env 0 cursor [] inputs
  pure { stmts := appendStmts u (acct.modseq + 1) env.now r.1 r.2, result := r.1 }

def keywordsOf (id : Id) (db : Db) : List Text :=
  (db.keywords.filter fun k => k.messageId = id).map (·.keyword)

def mailboxesOf (id : Id) (db : Db) : List Id :=
  (db.memberships.filter fun r => r.messageId = id).map (·.mailboxId)

/-- The change of one message: what it loses and gains. -/
structure KeywordChange where
  id : Id
  toRemove : List Text
  toAdd : List Text
  wasSeen : Bool
  mailboxIds : List Id

def KeywordChange.isSeen (c : KeywordChange) : Bool :=
  (c.wasSeen || c.toAdd.contains seenKeyword) && !c.toRemove.contains seenKeyword

def KeywordChange.unread (c : KeywordChange) : Int :=
  if c.wasSeen = c.isSeen then 0 else if c.isSeen then -1 else 1

/-- `DELETE FROM message_keywords … AND keyword IN (…)`. -/
def KeywordChange.removeStmts (c : KeywordChange) : List Stmt :=
  (Table.chunk (listSize 1) c.toRemove).map (Stmt.deleteKeywords c.id)

def KeywordChange.rows (c : KeywordChange) : List Keyword := c.toAdd.map fun k => ⟨c.id, k⟩

def keywordStates (next : Nat) (mailboxIds : List Id) : Stmt :=
  Stmt.updateAccount { modseq := next, email := true, mailbox := !mailboxIds.isEmpty }

def setKeywordsStmts (next now : Nat) (c : KeywordChange) : List Stmt :=
  [Stmt.claim next] ++ c.removeStmts ++ multiRow 3 .insertKeywords c.rows ++
    [Stmt.setModseq next [c.id], log next now .email .updated c.id] ++
    c.mailboxIds.flatMap (fun b =>
      [log next now .mailbox .updated b,
        Stmt.updateMailbox b { highestmodseq := next, unreadCount := c.unread }]) ++
    [keywordStates next c.mailboxIds]

def setKeywordsAttempt (messageId : Id) (add remove : List Text) (env : Env) : Reads (Plan Unit) := do
  let acct ← mustGetAccount
  let found ← Reads.select fun db => messageOf db messageId
  Reads.check found.isSome (storeError "message not found: " messageId)
  let current ← Reads.select (keywordsOf messageId)
  let removeSet := lowerSet u remove
  let addList := (lowerSet u add).filter fun k => !removeSet.contains k && !current.contains k
  let removeList := removeSet.filter fun k => current.contains k
  if addList = [] ∧ removeList = [] then pure { result := () }
  else do
    let mailboxIds ← Reads.select (mailboxesOf messageId)
    let c : KeywordChange := ⟨messageId, removeList, addList, current.contains seenKeyword, mailboxIds⟩
    pure { stmts := setKeywordsStmts (acct.modseq + 1) env.now c, result := () }

/-- The change of one of several messages; with `replace`, `add` is the whole new set. -/
def batchChange (add remove : List Text) (replace : Bool) (keywords : List Keyword)
    (memberships : List Membership) (id : Id) : KeywordChange :=
  let current := (keywords.filter fun k => k.messageId = id).map (·.keyword)
  { id := id
    toRemove :=
      if replace then current.filter fun k => !add.contains k
      else remove.filter fun k => current.contains k
    toAdd := add.filter fun k => !current.contains k && (replace || !remove.contains k)
    wasSeen := current.contains seenKeyword
    mailboxIds := (memberships.filter fun r => r.messageId = id).map (·.mailboxId) }

def touchedMailboxes (changes : List KeywordChange) : List Id :=
  (changes.flatMap (·.mailboxIds)).eraseDups

/-- The unread delta of mailbox `b`. -/
def unreadDelta (changes : List KeywordChange) (b : Id) : Int :=
  ((changes.filter fun c => c.mailboxIds.contains b).map (·.unread)).sum

def setKeywordsBatchStmts (next now : Nat) (changes : List KeywordChange) : List Stmt :=
  [Stmt.claim next] ++ changes.flatMap (·.removeStmts) ++
    multiRow 3 .insertKeywords (changes.flatMap (·.rows)) ++
    bumpMessages next (changes.map (·.id)) ++ changes.map (fun c => log next now .email .updated c.id) ++
    (touchedMailboxes changes).flatMap (fun b =>
      [log next now .mailbox .updated b,
        Stmt.updateMailbox b { highestmodseq := next, unreadCount := unreadDelta changes b }]) ++
    [keywordStates next (touchedMailboxes changes)]

def setKeywordsBatchAttempt (messageIds : List Id) (add remove : List Text) (replace : Bool)
    (env : Env) : Reads (Plan (List Id)) := do
  let acct ← mustGetAccount
  let ids := messageIds.eraseDups
  let owned ← queryInChunks 1 ids fun part db => db.messages.filter fun m => part.contains m.id
  let targets := ids.filter fun id => owned.any fun m => m.id = id
  if targets = [] then pure { result := [] }
  else do
    let keywords ← queryInChunks 0 targets fun part db =>
      db.keywords.filter fun k => part.contains k.messageId
    let memberships ← queryInChunks 0 targets fun part db =>
      db.memberships.filter fun r => part.contains r.messageId
    let changes := (targets.map (batchChange (lowerSet u add) (lowerSet u remove) replace keywords
      memberships)).filter fun c => !(c.toAdd.isEmpty && c.toRemove.isEmpty)
    if changes = [] then pure { result := [] }
    else
      pure
        { stmts := setKeywordsBatchStmts (acct.modseq + 1) env.now changes, result := changes.map (·.id) }

end

def setDeletedStmts (next now : Nat) (mailboxId : Id) (deleted : Bool) (targets : List Membership) :
    List Stmt :=
  let messageIds := (targets.map (·.messageId)).eraseDups
  [Stmt.claim next] ++
    (Table.chunk (listSize 2) (targets.map (·.uid))).map (Stmt.setDeleted deleted mailboxId) ++
    bumpMessages next messageIds ++ messageIds.map (log next now .email .updated) ++
    [log next now .mailbox .updated mailboxId, Stmt.updateMailbox mailboxId { highestmodseq := next },
      Stmt.updateAccount { modseq := next, email := true, mailbox := true }]

def setDeletedAttempt (mailboxId : Id) (uids : List Nat) (deleted : Bool) (env : Env) :
    Reads (Plan Unit) := do
  let acct ← mustGetAccount
  if uids = [] then pure { result := () }
  else do
    let row ← Reads.select (activeMailbox mailboxId)
    Reads.check row.isSome (storeError "mailbox not found or inactive: " mailboxId)
    let rows ← queryInChunks 1 uids fun part db =>
      db.memberships.filter fun r => r.mailboxId = mailboxId && part.contains r.uid
    let targets := rows.filter fun r => r.deleted ≠ deleted
    if targets = [] then pure { result := () }
    else
      pure { stmts := setDeletedStmts (acct.modseq + 1) env.now mailboxId deleted targets, result := () }

/-- What `expungeAttempt` keeps of a row it read. -/
structure ExpungeTarget where
  uid : Nat
  messageId : Id
  sizeBytes : Nat
  deriving DecidableEq

/-- `t.thread_id`: the row had it, but the target does not. -/
def ExpungeTarget.threadId (_ : ExpungeTarget) : Option Id := none

def expungeRows (mailboxId : Id) (p : Nat → Bool) : Db → List (Membership × MessageRow) :=
  joinMessages fun r => r.mailboxId = mailboxId && r.deleted && p r.uid

def expungeTargets (rows : List (Membership × MessageRow)) : List ExpungeTarget :=
  rows.map fun p => ⟨p.1.uid, p.1.messageId, p.2.sizeBytes⟩

def readExpungeRows (mailboxId : Id) : Option (List Nat) → Reads (List (Membership × MessageRow))
  | some (uid :: uids) =>
    queryInChunks 1 (uid :: uids) fun part => expungeRows mailboxId fun u => part.contains u
  | _ => Reads.select (expungeRows mailboxId fun _ => true)

def expungeStmts (next now : Nat) (mailboxId : Id) (targets : List ExpungeTarget)
    (counts : List (Id × Nat)) (seen : List Id) : List Stmt :=
  let messageIds := (targets.map (·.messageId)).eraseDups
  let dying := dyingIds counts messageIds
  let surviving := survivingIds counts messageIds
  let threadIds := (targets.filterMap (·.threadId)).eraseDups
  [Stmt.claim next] ++
    (Table.chunk (listSize 1) (targets.map (·.uid))).map (Stmt.deleteMemberships mailboxId) ++
    multiRow 4 .insertExpunged (targets.map fun t => ⟨mailboxId, t.uid, next, now⟩) ++
    deleteMessageRows dying ++ dying.map (log next now .email .destroyed) ++
    bumpMessages next surviving ++ surviving.map (log next now .email .updated) ++
    [log next now .mailbox .updated mailboxId] ++ threadIds.map (log next now .thread .updated) ++
    [Stmt.updateMailbox mailboxId
        { highestmodseq := next
          totalCount := -targets.length
          totalBytes := -((targets.map (·.sizeBytes)).sum : Nat)
          unreadCount := -(targets.filter fun t => !seen.contains t.messageId).length },
      Stmt.updateAccount
        { modseq := next, email := true, mailbox := true, thread := true
          usedBytes :=
            -(((targets.filter fun t => dying.contains t.messageId).map (·.sizeBytes)).sum : Nat)
          messageCount := -dying.length }]

def expungeAttempt (mailboxId : Id) (uids : Option (List Nat)) (env : Env) :
    Reads (Plan (List (Nat × Nat))) := do
  let acct ← mustGetAccount
  let row ← Reads.select (activeMailbox mailboxId)
  Reads.check row.isSome (storeError "mailbox not found or inactive: " mailboxId)
  let rows ← readExpungeRows mailboxId uids
  if rows = [] then pure { result := [] }
  else do
    let counts ← queryInChunks 0 (rowIds rows) membershipCounts
    let seen ← queryInChunks 0 (rowIds rows) seenIds
    let next := acct.modseq + 1
    pure
      { stmts := expungeStmts next env.now mailboxId (expungeTargets rows) counts seen
        result := (expungeTargets rows).map fun t => (t.uid, next) }

/-- `DELETE`s of a single destroyed message. -/
def deleteMessageRow (id : Id) : List Stmt :=
  [Stmt.deleteMessages [id], Stmt.deleteMessageKeywords [id], Stmt.deleteAddresses [id], Stmt.deleteHeaders [id],
    Stmt.deleteBlobRefs [id]]

def leaveSet (next size : Nat) (seen : Bool) : MailboxSet :=
  { highestmodseq := next, totalCount := -1, totalBytes := -size, unreadCount := -unreadOf seen }

/-- A membership enters a mailbox under `uid`. -/
def enterSet (next uid size : Nat) (seen : Bool) : MailboxSet :=
  { uidnext := some (uid + 1), highestmodseq := next, totalCount := 1, totalBytes := size
    unreadCount := unreadOf seen }

def removeMembershipStmts (next now : Nat) (r : Membership) (m : MessageRow) (isLast seen : Bool) :
    List Stmt :=
  [Stmt.claim next, Stmt.deleteMemberships r.mailboxId [r.uid],
    Stmt.insertExpunged [⟨r.mailboxId, r.uid, next, now⟩], log next now .mailbox .updated r.mailboxId,
    Stmt.updateMailbox r.mailboxId (leaveSet next m.sizeBytes seen)] ++
    if isLast then
      deleteMessageRow r.messageId ++
        [log next now .email .destroyed r.messageId,
          Stmt.updateAccount
            { modseq := next, email := true, mailbox := true, thread := true
              usedBytes := -m.sizeBytes, messageCount := -1 }]
    else
      [Stmt.setModseq next [r.messageId], log next now .email .updated r.messageId,
        log next now .thread .updated m.threadId,
        Stmt.updateAccount { modseq := next, email := true, mailbox := true, thread := true }]

def removeMembershipAttempt (messageId mailboxId : Id) (env : Env) : Reads (Plan Bool) := do
  let acct ← mustGetAccount
  let rows ← Reads.select
    (joinMessages fun r => r.messageId = messageId && r.mailboxId = mailboxId)
  match rows with
  | [] => Reads.throw (storeError "message not in mailbox: " messageId)
  | (r, m) :: _ =>
    let count ← Reads.select fun db => db.memberships.countP fun r => r.messageId = messageId
    let seen ← Reads.select (hasSeen messageId)
    pure
      { stmts := removeMembershipStmts (acct.modseq + 1) env.now r m (count ≤ 1) seen
        result := count ≤ 1 }

def destroyMessageStmts (next now : Nat) (m : MessageRow) (memberships : List Membership)
    (seen : Bool) : List Stmt :=
  [Stmt.claim next] ++
    memberships.flatMap (fun r =>
      [Stmt.deleteMemberships r.mailboxId [r.uid], Stmt.insertExpunged [⟨r.mailboxId, r.uid, next, now⟩],
        log next now .mailbox .updated r.mailboxId,
        Stmt.updateMailbox r.mailboxId (leaveSet next m.sizeBytes seen)]) ++
    deleteMessageRow m.id ++
    [log next now .email .destroyed m.id, log next now .thread .updated m.threadId,
      Stmt.updateAccount
        { modseq := next, email := true, mailbox := true, thread := true
          usedBytes := -m.sizeBytes, messageCount := -1 }]

def destroyMessageAttempt (messageId : Id) (env : Env) : Reads (Plan Unit) := do
  let acct ← mustGetAccount
  let row ← Reads.select fun db => messageOf db messageId
  match row with
  | none => Reads.throw (storeError "message not found: " messageId)
  | some m =>
    let memberships ← Reads.select fun db => db.memberships.filter fun r => r.messageId = messageId
    let seen ← Reads.select (hasSeen messageId)
    pure { stmts := destroyMessageStmts (acct.modseq + 1) env.now m memberships seen, result := () }

def moveMessageStmts (next now : Nat) (m : MessageRow) (source : Membership) (target : MailboxRow)
    (seen : Bool) : List Stmt :=
  [Stmt.claim next, Stmt.deleteMemberships source.mailboxId [source.uid],
    Stmt.insertMemberships [⟨target.id, target.uidnext, m.id, now, false⟩],
    Stmt.insertExpunged [⟨source.mailboxId, source.uid, next, now⟩], Stmt.setModseq next [m.id],
    log next now .email .updated m.id, log next now .thread .updated m.threadId,
    log next now .mailbox .updated source.mailboxId, log next now .mailbox .updated target.id,
    Stmt.updateMailbox source.mailboxId (leaveSet next m.sizeBytes seen),
    Stmt.updateMailbox target.id (enterSet next target.uidnext m.sizeBytes seen),
    Stmt.updateAccount { modseq := next, email := true, mailbox := true, thread := true }]

def moveMessageAttempt (messageId fromId toId : Id) (env : Env) : Reads (Plan (Nat × Nat)) := do
  let acct ← mustGetAccount
  let row ← Reads.select fun db => messageOf db messageId
  match row with
  | none => Reads.throw (storeError "message not found: " messageId)
  | some m =>
    let source ← Reads.select (membershipOf fromId messageId)
    match source with
    | none => Reads.throw (storeError "message not in source mailbox: " messageId)
    | some source =>
      let target ← Reads.select (activeMailbox toId)
      match target with
      | none => Reads.throw (storeError "target mailbox not found: " toId)
      | some target =>
        let existing ← Reads.select (membershipOf toId messageId)
        match existing with
        | some r => pure { result := (r.uid, acct.modseq) }
        | none =>
          let seen ← Reads.select (hasSeen messageId)
          let next := acct.modseq + 1
          pure
            { stmts := moveMessageStmts next env.now m source target seen
              result := (target.uidnext, next) }

def copyMessageStmts (next now : Nat) (m : MessageRow) (target : MailboxRow) (seen : Bool) :
    List Stmt :=
  [Stmt.claim next, Stmt.insertMemberships [⟨target.id, target.uidnext, m.id, now, false⟩],
    Stmt.setModseq next [m.id], log next now .email .updated m.id, log next now .mailbox .updated target.id,
    Stmt.updateMailbox target.id (enterSet next target.uidnext m.sizeBytes seen),
    Stmt.updateAccount { modseq := next, email := true, mailbox := true }]

def copyMessageAttempt (messageId toId : Id) (env : Env) : Reads (Plan (Nat × Nat)) := do
  let acct ← mustGetAccount
  let row ← Reads.select fun db => messageOf db messageId
  match row with
  | none => Reads.throw (storeError "message not found: " messageId)
  | some m =>
    let target ← Reads.select (activeMailbox toId)
    match target with
    | none => Reads.throw (storeError "target mailbox not found: " toId)
    | some target =>
      let existing ← Reads.select (membershipOf toId messageId)
      match existing with
      | some r => pure { result := (r.uid, acct.modseq) }
      | none =>
        let seen ← Reads.select (hasSeen messageId)
        let next := acct.modseq + 1
        pure
          { stmts := copyMessageStmts next env.now m target seen
            result := (target.uidnext, next) }

end Ionosphere.Store
