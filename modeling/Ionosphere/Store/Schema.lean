import Ionosphere.Js.Text
import Ionosphere.Lib.Table

/-! The rows of one account, the statements the store sends, and batches of them. A
batch is atomic: a statement that leaves two rows with one key refuses all of it.
Search rows and the columns no store operation reads are left out. -/
namespace Ionosphere.Store

open Ionosphere.Js Ionosphere.Lib

abbrev Id := Text

structure AccountRow where
  id : Id := []
  /-- `status = 1`. -/
  active : Bool := true
  modseq : Nat := 0
  changelogFloor : Nat := 0
  uidvalidityLast : Nat := 0
  quotaBytes : Nat := 0
  usedBytes : Int := 0
  messageCount : Int := 0
  stateEmail : Nat := 0
  stateMailbox : Nat := 0
  stateThread : Nat := 0
  stateSubmission : Nat := 0
  stateIdentity : Nat := 0
  deriving DecidableEq

/-- `status = 1` and `status = 2`. -/
inductive MailboxStatus where
  | active
  | deleted
  deriving DecidableEq

structure MailboxRow where
  id : Id
  parentId : Id := []
  name : Text
  role : Option Text := none
  status : MailboxStatus := .active
  uidvalidity : Nat
  uidnext : Nat := 1
  highestmodseq : Nat := 0
  subscribed : Bool := true
  totalCount : Int := 0
  unreadCount : Int := 0
  totalBytes : Int := 0
  expungedFloor : Nat := 0
  deriving DecidableEq

structure Envelope where
  subject : Option Text := none
  subjectBase : Option Text := none
  msgidHash : Option Text := none
  sentAt : Option Int := none
  preview : Option Text := none
  hasAttachment : Bool := false
  deriving DecidableEq

structure MessageRow where
  id : Id
  blobId : Id
  threadId : Id
  modseq : Nat
  sizeBytes : Nat
  receivedAt : Nat
  envelope : Envelope := {}
  deriving DecidableEq

/-- A row of `message_mailbox`. -/
structure Membership where
  mailboxId : Id
  uid : Nat
  messageId : Id
  savedate : Nat := 0
  deleted : Bool := false
  deriving DecidableEq

structure Keyword where
  messageId : Id
  keyword : Text
  deriving DecidableEq

structure Address where
  messageId : Id
  kind : Nat
  pos : Nat
  name : Option Text
  email : Text
  deriving DecidableEq

/-- A row of `message_header_projection`. -/
structure Header where
  messageId : Id
  occurrence : Nat
  name : Text
  kind : Text
  displayValue : Text
  sortValue : Text
  dateValue : Option Int
  addressValue : Option Text
  deriving DecidableEq

inductive BlobStatus where
  | live
  | doomed
  | swept
  deriving DecidableEq

structure Blob where
  id : Id
  sizeBytes : Nat
  status : BlobStatus
  generation : Nat
  doomedAt : Option Nat := none
  deriving DecidableEq

/-- A row of `blob_refs` with `ref_kind` message. -/
structure BlobRef where
  blobId : Id
  refId : Id
  deriving DecidableEq

structure ThreadRef where
  refHash : Text
  threadId : Id
  createdAt : Nat
  deriving DecidableEq

structure Expunged where
  mailboxId : Id
  uid : Nat
  modseq : Nat
  createdAt : Nat
  deriving DecidableEq

inductive Entity where
  | email
  | mailbox
  | thread
  | submission
  | identity
  deriving DecidableEq

inductive ChangeKind where
  | created
  | updated
  | destroyed
  deriving DecidableEq

structure ChangeRow where
  modseq : Nat
  entity : Entity
  objectId : Id
  kind : ChangeKind
  createdAt : Nat
  deriving DecidableEq

structure Db where
  account : AccountRow := {}
  mailboxes : List MailboxRow := []
  messages : List MessageRow := []
  memberships : List Membership := []
  keywords : List Keyword := []
  addresses : List Address := []
  headers : List Header := []
  blobs : List Blob := []
  blobRefs : List BlobRef := []
  threadRefs : List ThreadRef := []
  expunged : List Expunged := []
  changeLog : List ChangeRow := []
  claims : List Nat := []
  deriving DecidableEq

/-- The primary keys and unique indexes. -/
structure Keyed (db : Db) : Prop where
  mailbox : (db.mailboxes.map (·.id)).Nodup
  mailboxName : (db.mailboxes.map fun b => (b.parentId, b.name)).Nodup
  message : (db.messages.map (·.id)).Nodup
  uid : (db.memberships.map fun r => (r.mailboxId, r.uid)).Nodup
  membership : (db.memberships.map fun r => (r.mailboxId, r.messageId)).Nodup
  keyword : db.keywords.Nodup
  address : (db.addresses.map fun a => (a.messageId, a.kind, a.pos)).Nodup
  header : (db.headers.map fun h => (h.messageId, h.name, h.occurrence)).Nodup
  blobRef : db.blobRefs.Nodup
  expunged : (db.expunged.map fun x => (x.mailboxId, x.uid)).Nodup
  change : (db.changeLog.map fun c => (c.modseq, c.entity, c.objectId)).Nodup
  claim : db.claims.Nodup

theorem keyed_iff (db : Db) :
    Keyed db ↔ ((db.mailboxes.map (·.id)).Nodup ∧
      (db.mailboxes.map fun b => (b.parentId, b.name)).Nodup) ∧
      (db.messages.map (·.id)).Nodup ∧
      ((db.memberships.map fun r => (r.mailboxId, r.uid)).Nodup ∧
        (db.memberships.map fun r => (r.mailboxId, r.messageId)).Nodup) ∧
      db.keywords.Nodup ∧
      (db.addresses.map fun a => (a.messageId, a.kind, a.pos)).Nodup ∧
      (db.headers.map fun h => (h.messageId, h.name, h.occurrence)).Nodup ∧
      db.blobRefs.Nodup ∧
      (db.expunged.map fun x => (x.mailboxId, x.uid)).Nodup ∧
      (db.changeLog.map fun c => (c.modseq, c.entity, c.objectId)).Nodup ∧ db.claims.Nodup :=
  ⟨fun h => ⟨⟨h.mailbox, h.mailboxName⟩, h.message, ⟨h.uid, h.membership⟩, h.keyword, h.address,
      h.header, h.blobRef, h.expunged, h.change, h.claim⟩,
    fun ⟨⟨hb, hn⟩, hm, ⟨hu, hmm⟩, hk, ha, hh, hr, hx, hc, hcl⟩ =>
      ⟨hb, hn, hm, hu, hmm, hk, ha, hh, hr, hx, hc, hcl⟩⟩

instance (db : Db) : Decidable (Keyed db) := decidable_of_iff _ (keyed_iff db).symm

/-- The `SET` list of an `UPDATE mailboxes`: new values, and what is added to the counters. -/
structure MailboxSet where
  parentId : Option Id := none
  name : Option Text := none
  status : Option MailboxStatus := none
  subscribed : Option Bool := none
  uidnext : Option Nat := none
  highestmodseq : Nat
  totalCount : Int := 0
  totalBytes : Int := 0
  unreadCount : Int := 0
  deriving DecidableEq

def MailboxSet.apply (set : MailboxSet) (b : MailboxRow) : MailboxRow :=
  { b with
    parentId := set.parentId.getD b.parentId
    name := set.name.getD b.name
    status := set.status.getD b.status
    subscribed := set.subscribed.getD b.subscribed
    uidnext := set.uidnext.getD b.uidnext
    highestmodseq := set.highestmodseq
    totalCount := b.totalCount + set.totalCount
    totalBytes := b.totalBytes + set.totalBytes
    unreadCount := b.unreadCount + set.unreadCount }

/-- The `SET` list of an `UPDATE accounts`; every one sets `modseq`, and the states to
the same value. -/
structure AccountSet where
  modseq : Nat
  email : Bool := false
  mailbox : Bool := false
  thread : Bool := false
  uidvalidityLast : Option Nat := none
  usedBytes : Int := 0
  messageCount : Int := 0
  deriving DecidableEq

def AccountSet.apply (set : AccountSet) (a : AccountRow) : AccountRow :=
  { a with
    modseq := set.modseq
    stateEmail := if set.email then set.modseq else a.stateEmail
    stateMailbox := if set.mailbox then set.modseq else a.stateMailbox
    stateThread := if set.thread then set.modseq else a.stateThread
    uidvalidityLast := set.uidvalidityLast.getD a.uidvalidityLast
    usedBytes := a.usedBytes + set.usedBytes
    messageCount := a.messageCount + set.messageCount }

inductive Stmt where
  | claim (modseq : Nat)
  | insertMailbox (row : MailboxRow)
  | updateMailbox (id : Id) (set : MailboxSet)
  /-- `WHERE id = ? AND status = 2`. -/
  | deleteMailbox (id : Id)
  | insertMessages (rows : List MessageRow)
  | setModseq (modseq : Nat) (ids : List Id)
  | deleteMessages (ids : List Id)
  | insertMemberships (rows : List Membership)
  | setDeleted (deleted : Bool) (mailboxId : Id) (uids : List Nat)
  | deleteMemberships (mailboxId : Id) (uids : List Nat)
  | deleteMailboxMemberships (mailboxId : Id)
  | insertKeywords (rows : List Keyword)
  | deleteKeywords (messageId : Id) (keywords : List Text)
  | deleteMessageKeywords (ids : List Id)
  | insertAddresses (rows : List Address)
  | deleteAddresses (ids : List Id)
  | insertHeaders (rows : List Header)
  | deleteHeaders (ids : List Id)
  /-- `insertIgnore`. -/
  | insertBlob (row : Blob)
  | reviveBlob (id : Id) (generation : Nat)
  | insertBlobRefs (rows : List BlobRef)
  | deleteBlobRefs (refIds : List Id)
  /-- `insertIgnore`. -/
  | insertThreadRef (row : ThreadRef)
  | insertExpunged (rows : List Expunged)
  | deleteExpunged (mailboxId : Id)
  | changeLog (row : ChangeRow)
  | updateAccount (set : AccountSet)
  deriving DecidableEq

namespace Stmt

def onAccount : Stmt → AccountRow → AccountRow
  | updateAccount set, a => set.apply a
  | _, a => a

def onMailbox : Stmt → MailboxRow → MailboxRow
  | updateMailbox id set, b => if b.id = id then set.apply b else b
  | _, b => b

def onMailboxes : Stmt → List MailboxRow → List MailboxRow
  | insertMailbox row, t => t ++ [row]
  | deleteMailbox id, t => t.filter fun b => !(b.id = id && b.status = .deleted)
  | s, t => t.map s.onMailbox

def bump (modseq : Nat) (m : MessageRow) : MessageRow := { m with modseq := modseq }

def onMessages : Stmt → List MessageRow → List MessageRow
  | insertMessages rows, t => t ++ rows
  | setModseq modseq ids, t => t.map fun m => if ids.contains m.id then bump modseq m else m
  | deleteMessages ids, t => t.filter fun m => !ids.contains m.id
  | _, t => t

def onMemberships : Stmt → List Membership → List Membership
  | insertMemberships rows, t => t ++ rows
  | setDeleted deleted mailboxId uids, t => t.map fun r =>
    if r.mailboxId = mailboxId && uids.contains r.uid then { r with deleted := deleted } else r
  | deleteMemberships mailboxId uids, t =>
    t.filter fun r => !(r.mailboxId = mailboxId && uids.contains r.uid)
  | deleteMailboxMemberships mailboxId, t => t.filter fun r => !(r.mailboxId = mailboxId)
  | _, t => t

def onKeywords : Stmt → List Keyword → List Keyword
  | insertKeywords rows, t => t ++ rows
  | deleteKeywords messageId keywords, t =>
    t.filter fun k => !(k.messageId = messageId && keywords.contains k.keyword)
  | deleteMessageKeywords ids, t => t.filter fun k => !ids.contains k.messageId
  | _, t => t

def onAddresses : Stmt → List Address → List Address
  | insertAddresses rows, t => t ++ rows
  | deleteAddresses ids, t => t.filter fun a => !ids.contains a.messageId
  | _, t => t

def onHeaders : Stmt → List Header → List Header
  | insertHeaders rows, t => t ++ rows
  | deleteHeaders ids, t => t.filter fun h => !ids.contains h.messageId
  | _, t => t

def onBlobs : Stmt → List Blob → List Blob
  | insertBlob row, t => if t.any fun b => b.id = row.id then t else t ++ [row]
  | reviveBlob id generation, t => t.map fun b =>
    if b.id = id && b.generation ≤ generation then
      { b with status := .live, doomedAt := none, generation := generation }
    else b
  | _, t => t

def onBlobRefs : Stmt → List BlobRef → List BlobRef
  | insertBlobRefs rows, t => t ++ rows
  | deleteBlobRefs refIds, t => t.filter fun r => !refIds.contains r.refId
  | _, t => t

def onThreadRefs : Stmt → List ThreadRef → List ThreadRef
  | insertThreadRef row, t =>
    if t.any fun r => r.refHash = row.refHash && r.threadId = row.threadId then t else t ++ [row]
  | _, t => t

def onExpunged : Stmt → List Expunged → List Expunged
  | insertExpunged rows, t => t ++ rows
  | deleteExpunged mailboxId, t => t.filter fun x => !(x.mailboxId = mailboxId)
  | _, t => t

def onChangeLog : Stmt → List ChangeRow → List ChangeRow
  | changeLog row, t => t ++ [row]
  | _, t => t

def onClaims : Stmt → List Nat → List Nat
  | claim modseq, t => t ++ [modseq]
  | _, t => t

/-- Statements act table by table. -/
def apply (s : Stmt) (db : Db) : Db :=
  { account := s.onAccount db.account
    mailboxes := s.onMailboxes db.mailboxes
    messages := s.onMessages db.messages
    memberships := s.onMemberships db.memberships
    keywords := s.onKeywords db.keywords
    addresses := s.onAddresses db.addresses
    headers := s.onHeaders db.headers
    blobs := s.onBlobs db.blobs
    blobRefs := s.onBlobRefs db.blobRefs
    threadRefs := s.onThreadRefs db.threadRefs
    expunged := s.onExpunged db.expunged
    changeLog := s.onChangeLog db.changeLog
    claims := s.onClaims db.claims }

def exec (s : Stmt) (db : Db) : Option Db := if Keyed (s.apply db) then some (s.apply db) else none

end Stmt

/-- `db.batch`: all statements in order, or `none`, a `BatchConflictError`. -/
def batch : List Stmt → Db → Option Db
  | [], db => some db
  | s :: stmts, db => (s.exec db).bind (batch stmts)

def applyAll (stmts : List Stmt) (db : Db) : Db := stmts.foldl (fun db s => s.apply db) db

theorem batch_eq {stmts : List Stmt} {db db' : Db} (h : batch stmts db = some db') :
    db' = applyAll stmts db := by
  induction stmts generalizing db with
  | nil => cases h; rfl
  | cons s stmts ih =>
    simp only [batch, Option.bind_eq_some_iff, Stmt.exec] at h
    obtain ⟨db₁, hs, hrest⟩ := h
    split at hs
    · cases hs
      exact ih hrest
    · cases hs

theorem batch_keyed {stmts : List Stmt} {db db' : Db} (hdb : Keyed db)
    (h : batch stmts db = some db') : Keyed db' := by
  induction stmts generalizing db with
  | nil => cases h; exact hdb
  | cons s stmts ih =>
    simp only [batch, Option.bind_eq_some_iff, Stmt.exec] at h
    obtain ⟨db₁, hs, hrest⟩ := h
    split at hs
    · rename_i hkeyed
      cases hs
      exact ih hkeyed hrest
    · cases hs

def across {τ : Type} (f : Stmt → τ → τ) (stmts : List Stmt) (t : τ) : τ :=
  stmts.foldl (fun t s => f s t) t

section

variable {τ : Type} (f : Stmt → τ → τ)

@[simp] theorem across_nil (t : τ) : across f [] t = t := rfl

@[simp] theorem across_cons (s : Stmt) (stmts : List Stmt) (t : τ) :
    across f (s :: stmts) t = across f stmts (f s t) := rfl

@[simp] theorem across_append (as bs : List Stmt) (t : τ) :
    across f (as ++ bs) t = across f bs (across f as t) := List.foldl_append

theorem across_frame {stmts : List Stmt} (h : ∀ s ∈ stmts, ∀ t, f s t = t) (t : τ) :
    across f stmts t = t := by
  induction stmts with
  | nil => rfl
  | cons s stmts ih =>
    rw [across_cons, h s List.mem_cons_self]
    exact ih fun x hx => h x (List.mem_cons_of_mem _ hx)

end

theorem applyAll_eq (stmts : List Stmt) (db : Db) :
    applyAll stmts db =
      { account := across Stmt.onAccount stmts db.account
        mailboxes := across Stmt.onMailboxes stmts db.mailboxes
        messages := across Stmt.onMessages stmts db.messages
        memberships := across Stmt.onMemberships stmts db.memberships
        keywords := across Stmt.onKeywords stmts db.keywords
        addresses := across Stmt.onAddresses stmts db.addresses
        headers := across Stmt.onHeaders stmts db.headers
        blobs := across Stmt.onBlobs stmts db.blobs
        blobRefs := across Stmt.onBlobRefs stmts db.blobRefs
        threadRefs := across Stmt.onThreadRefs stmts db.threadRefs
        expunged := across Stmt.onExpunged stmts db.expunged
        changeLog := across Stmt.onChangeLog stmts db.changeLog
        claims := across Stmt.onClaims stmts db.claims } := by
  induction stmts generalizing db with
  | nil => rfl
  | cons s stmts ih =>
    have hcons : applyAll (s :: stmts) db = applyAll stmts (s.apply db) := rfl
    rw [hcons, ih]
    rfl

end Ionosphere.Store
