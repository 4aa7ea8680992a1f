import Ionosphere.Store.Attempt

/-! Mailboxes: create, delete, reap, subscribe and rename. -/
namespace Ionosphere.Store

open Ionosphere.Js Ionosphere.Lib

/-- `new StoreError(what + id)`. -/
def storeError (what : String) (id : Text) : StoreError := .store (what.toList ++ id)

def log (modseq now : Nat) (entity : Entity) (kind : ChangeKind) (id : Id) : Stmt :=
  Stmt.changeLog ⟨modseq, entity, id, kind, now⟩

/-- `WHERE id = ? AND status = 1`. -/
def activeMailbox (id : Id) (db : Db) : Option MailboxRow :=
  db.mailboxes.find? fun b => b.id = id && b.status = .active

/-- `WHERE id = ? AND status = 2`. -/
def deletedMailbox (id : Id) (db : Db) : Option MailboxRow :=
  db.mailboxes.find? fun b => b.id = id && b.status = .deleted

def messageOf (db : Db) (id : Id) : Option MessageRow := db.messages.find? fun m => m.id = id

def joinMessages (p : Membership → Bool) (db : Db) : List (Membership × MessageRow) :=
  (db.memberships.filter p).filterMap fun r => (messageOf db r.messageId).map fun m => (r, m)

/-- `SELECT message_id, COUNT(*) … GROUP BY message_id`. -/
def membershipCounts (ids : List Id) (db : Db) : List (Id × Nat) :=
  ((db.memberships.filter fun r => ids.contains r.messageId).map (·.messageId)).eraseDups.map
    fun id => (id, db.memberships.countP fun r => r.messageId = id)

/-- `new Map(rows).get(id) ?? 0`. -/
def countOf (rows : List (Id × Nat)) (id : Id) : Nat :=
  ((rows.find? fun p => p.1 = id).map (·.2)).getD 0

/-- The messages whose last membership this is. -/
def dyingIds (counts : List (Id × Nat)) (ids : List Id) : List Id :=
  ids.filter fun id => countOf counts id ≤ 1

def survivingIds (counts : List (Id × Nat)) (ids : List Id) : List Id :=
  ids.filter fun id => !(dyingIds counts ids).contains id

def deleteMessageRows (ids : List Id) : List Stmt :=
  (Table.chunk (listSize 1) ids).flatMap fun part =>
    [Stmt.deleteMessages part, Stmt.deleteMessageKeywords part, Stmt.deleteAddresses part, Stmt.deleteHeaders part,
      Stmt.deleteBlobRefs part]

def bumpMessages (modseq : Nat) (ids : List Id) : List Stmt :=
  (Table.chunk (listSize 1) ids).map (Stmt.setModseq modseq)

def mailboxStmts (next now : Nat) (id : Id) (set : MailboxSet) (kind : ChangeKind) : List Stmt :=
  [Stmt.claim next, Stmt.updateMailbox id set, log next now .mailbox kind id,
    Stmt.updateAccount { modseq := next, mailbox := true }]

def checkParent (parentId : Id) : Reads Unit :=
  if parentId = [] then pure ()
  else do
    let parent ← Reads.select (activeMailbox parentId)
    Reads.check parent.isSome (storeError "parent mailbox not found: " parentId)

def createMailboxStmts (next now uidvalidity : Nat) (id parentId : Id) (name : Text)
    (role : Option Text) : List Stmt :=
  [Stmt.claim next,
    Stmt.insertMailbox
      { id := id, parentId := parentId, name := name, role := role, uidvalidity := uidvalidity
        highestmodseq := next },
    log next now .mailbox .created id,
    Stmt.updateAccount { modseq := next, mailbox := true, uidvalidityLast := some uidvalidity }]

def createMailboxAttempt (parentId : Id) (name : Text) (role : Option Text) (env : Env) :
    Reads (Plan (Id × Nat)) := do
  let acct ← mustGetAccount
  checkParent parentId
  let existing ← Reads.select fun db => db.mailboxes.any fun b => b.parentId = parentId && b.name = name
  Reads.check (!existing) (storeError "mailbox name already exists: " name)
  let uidvalidity := max (env.now / 1000) (acct.uidvalidityLast + 1)
  let id := env.ulid 0
  pure
    { stmts := createMailboxStmts (acct.modseq + 1) env.now uidvalidity id parentId name role
      result := (id, uidvalidity) }

def isInbox (b : MailboxRow) : Bool := b.role = some "inbox".toList

def deleteMailboxAttempt (mailboxId : Id) (env : Env) : Reads (Plan Unit) := do
  let acct ← mustGetAccount
  let row ← Reads.select (activeMailbox mailboxId)
  match row with
  | none => Reads.throw (storeError "mailbox not found or inactive: " mailboxId)
  | some b =>
    Reads.check (!isInbox b) (storeError "cannot delete INBOX" [])
    let children ← Reads.select fun db =>
      db.mailboxes.any fun c => c.parentId = mailboxId && c.status = .active
    Reads.check (!children) (storeError "mailbox has children" [])
    let next := acct.modseq + 1
    pure
      { stmts := mailboxStmts next env.now mailboxId
          { status := some .deleted, name := some mailboxId, parentId := some []
            highestmodseq := next } .destroyed
        result := () }

def reapRows (mailboxId : Id) : Db → List (Membership × MessageRow) :=
  joinMessages fun r => r.mailboxId = mailboxId

def rowIds (rows : List (Membership × MessageRow)) : List Id :=
  (rows.map (·.1.messageId)).eraseDups

def reapMessages (mailboxId : Id) (next now : Nat) (rows : List (Membership × MessageRow))
    (counts : List (Id × Nat)) : List Stmt :=
  let dying := dyingIds counts (rowIds rows)
  let surviving := survivingIds counts (rowIds rows)
  let threadIds := (rows.map (·.2.threadId)).eraseDups
  let dyingBytes := ((rows.filter fun p => dying.contains p.1.messageId).map (·.2.sizeBytes)).sum
  [Stmt.claim next, Stmt.deleteMailboxMemberships mailboxId] ++ deleteMessageRows dying ++
    dying.map (log next now .email .destroyed) ++ bumpMessages next surviving ++
    surviving.map (log next now .email .updated) ++ threadIds.map (log next now .thread .updated) ++
    [Stmt.updateAccount
      { modseq := next, email := true, thread := true, usedBytes := -dyingBytes
        messageCount := -dying.length }]

def reapMailboxAttempt (mailboxId : Id) (env : Env) : Reads (Plan (Nat × Nat)) := do
  let row ← Reads.select (deletedMailbox mailboxId)
  match row with
  | none => pure { result := (0, 0) }
  | some _ =>
    let rows ← Reads.select (reapRows mailboxId)
    let last := [.deleteExpunged mailboxId, .deleteMailbox mailboxId]
    if rows = [] then pure { stmts := last, result := (0, 0) }
    else do
      let acct ← mustGetAccount
      let counts ← queryInChunks 0 (rowIds rows) membershipCounts
      pure
        { stmts := reapMessages mailboxId (acct.modseq + 1) env.now rows counts ++ last
          result := ((dyingIds counts (rowIds rows)).length,
            (survivingIds counts (rowIds rows)).length) }

def setSubscribedAttempt (mailboxId : Id) (subscribed : Bool) (env : Env) : Reads (Plan Unit) := do
  let acct ← mustGetAccount
  let row ← Reads.select (activeMailbox mailboxId)
  match row with
  | none => Reads.throw (storeError "mailbox not found or inactive: " mailboxId)
  | some b =>
    if b.subscribed = subscribed then pure { result := () }
    else
      let next := acct.modseq + 1
      pure
        { stmts := mailboxStmts next env.now mailboxId
            { subscribed := some subscribed, highestmodseq := next } .updated
          result := () }

/-- The new parent exists and is not below the mailbox: up its ancestors, at most
`depth` of them. -/
def climb (mailboxId newParentId : Id) : Nat → Id → Reads Unit
  | 0, _ => pure ()
  | depth + 1, cursor =>
    if cursor = [] then pure ()
    else do
      Reads.check (cursor ≠ mailboxId)
        (storeError "cannot move mailbox under its own descendant" [])
      let parent ← Reads.select (activeMailbox cursor)
      match parent with
      | none => Reads.throw (storeError "parent mailbox not found: " newParentId)
      | some p => climb mailboxId newParentId depth p.parentId

def renameMailboxAttempt (mailboxId newParentId : Id) (newName : Text) (env : Env) :
    Reads (Plan Unit) := do
  let acct ← mustGetAccount
  let row ← Reads.select (activeMailbox mailboxId)
  match row with
  | none => Reads.throw (storeError "mailbox not found or inactive: " mailboxId)
  | some b =>
    Reads.check (!isInbox b) (storeError "cannot rename INBOX" [])
    climb mailboxId newParentId 100 newParentId
    let existing ← Reads.select fun db => db.mailboxes.any fun c =>
      c.parentId = newParentId && c.name = newName && c.id ≠ mailboxId
    Reads.check (!existing) (storeError "mailbox name already exists: " newName)
    let next := acct.modseq + 1
    pure
      { stmts := mailboxStmts next env.now mailboxId
          { parentId := some newParentId, name := some newName, highestmodseq := next } .updated
        result := () }

end Ionosphere.Store
