import Ionosphere.Imap.SequenceSet
import Ionosphere.Store.Plans

/-! The part of the IMAP backend behind QRESYNC: the flags of messages, and `syncSince`, which
tells a client what went and what changed since a modseq. -/
namespace Ionosphere.Server

open Ionosphere.Js Ionosphere.Lib Ionosphere.Store Ionosphere.Imap

/-- `KEYWORD_TO_FLAG`. -/
def keywordFlags : List (Text × Text) :=
  [("$seen".toList, "\\Seen".toList), ("$answered".toList, "\\Answered".toList),
    ("$flagged".toList, "\\Flagged".toList), ("$draft".toList, "\\Draft".toList)]

/-- `FLAG_TO_KEYWORD`. -/
def flagKeywords : List (Text × Text) :=
  [("\\seen".toList, "$seen".toList), ("\\answered".toList, "$answered".toList),
    ("\\flagged".toList, "$flagged".toList), ("\\draft".toList, "$draft".toList)]

/-- The keys that every plain object inherits. -/
def inheritedKeys : List Text :=
  ["constructor".toList, "__proto__".toList, "hasOwnProperty".toList, "isPrototypeOf".toList,
    "propertyIsEnumerable".toList, "toLocaleString".toList, "toString".toList, "valueOf".toList,
    "__defineGetter__".toList, "__defineSetter__".toList, "__lookupGetter__".toList,
    "__lookupSetter__".toList]

/-- A text, or the function or object that a plain object inherits under a key. -/
inductive Property where
  | text (t : Text)
  | inherited (key : Text)
  deriving DecidableEq

def Property.text? : Property → Option Text
  | .text t => some t
  | .inherited _ => none

/-- `table[key] ?? key`. -/
def property (table : List (Text × Text)) (key : Text) : Property :=
  match Assoc.get table key with
  | some t => .text t
  | none => if key ∈ inheritedKeys then .inherited key else .text key

def keywordToFlag (keyword : Text) : Property := property keywordFlags keyword

/-- `\Deleted` belongs to the membership, and `\Recent` is not there. -/
def flagToKeyword (u : CaseMap) (flag : Text) : Option Property :=
  let lower := toLowerCase u flag
  if lower = "\\deleted".toList then none
  else if lower = "\\recent".toList then none
  else some (property flagKeywords lower)

def flagsOf (keywords : List Keyword) (r : Membership) : List Property :=
  ((keywords.filter fun k => k.messageId = r.messageId).map fun k => keywordToFlag k.keyword) ++
    if r.deleted then [Property.text "\\Deleted".toList] else []

/-- `findByPath` and the right to read: the row a name leads to. -/
structure Lookup where
  find : Db → Option MailboxRow
  mem : ∀ {db b}, find db = some b → b ∈ db.mailboxes

def Lookup.byId (id : Id) : Lookup := ⟨activeMailbox id, fun h => (activeMailbox_spec h).1⟩

structure MessageFlags where
  uid : Nat
  flags : List Property
  modseq : Nat
  deriving DecidableEq

/-- `fetchMessages` without the messages themselves; `none` is `NONEXISTENT`. -/
def fetchMessages (look : Lookup) (uids : List Nat) : Reads (Option (List MessageFlags)) := do
  let found ← Reads.select look.find
  match found with
  | none => pure none
  | some b =>
    if uids = [] then pure (some [])
    else do
      let read ← queryInChunks 1 uids fun part =>
        joinMessages fun r => r.mailboxId = b.id && part.contains r.uid
      let rows := read.insertionSort fun p q => p.1.uid ≤ q.1.uid
      if rows = [] then pure (some [])
      else do
        let keywords ← queryInChunks 0 (rowIds rows) fun part db =>
          db.keywords.filter fun k => part.contains k.messageId
        pure (some (rows.map fun p => ⟨p.1.uid, flagsOf keywords p.1, p.2.modseq⟩))

/-- `SELECT uid FROM expunged … ORDER BY uid`. -/
def tombstonesSince (mailboxId : Id) (since : Nat) (db : Db) : List Nat :=
  sortUids ((db.expunged.filter fun x => x.mailboxId = mailboxId && since < x.modseq).map (·.uid))

def vanishedFromTombstones (mailboxId : Id) (since : Nat) : Reads (List Nat) :=
  Reads.select (tombstonesSince mailboxId since)

/-- `SELECT uid FROM message_mailbox WHERE mailbox_id = ?`. -/
def presentUids (mailboxId : Id) (db : Db) : List Nat :=
  (db.memberships.filter fun r => r.mailboxId = mailboxId).map (·.uid)

/-- The uids of a range, none above `maxUid`. -/
def uidsOfRange (maxUid : Nat) (r : SeqRange) : List Nat :=
  let a := r.start.resolve maxUid
  let b := r.stop.resolve maxUid
  let lo := max 1 (min a b)
  List.range' lo (min (max a b) maxUid + 1 - lo)

/-- Without known uids it is `1:<uidnext-1>`. -/
def knownRanges (b : MailboxRow) (knownUids : Option (List SeqRange)) : List SeqRange :=
  knownUids.getD [⟨.num 1, .num (b.uidnext - 1)⟩]

def vanishedByDifference (b : MailboxRow) (knownUids : Option (List SeqRange)) :
    Reads (List Nat) := do
  let present ← Reads.select (presentUids b.id)
  pure (sortUids ((knownRanges b knownUids).flatMap fun r =>
    (uidsOfRange (b.uidnext - 1) r).filter fun uid => !present.contains uid))

structure SyncRequest where
  sinceModseq : Nat
  knownUids : Option (List SeqRange) := none
  vanishedOnly : Bool := false

inductive SyncReply where
  | no
  | sync (vanished : List Nat) (changed : List MessageFlags)
  deriving DecidableEq

def changedUids (mailboxId : Id) (since : Nat) (db : Db) : List Nat :=
  sortUids (((joinMessages (fun r => r.mailboxId = mailboxId) db).filter
    fun p => since < p.2.modseq).map (·.1.uid))

def vanishedSince (b : MailboxRow) (req : SyncRequest) : Reads (List Nat) :=
  if b.expungedFloor ≤ req.sinceModseq then vanishedFromTombstones b.id req.sinceModseq
  else vanishedByDifference b req.knownUids

def syncSince (look : Lookup) (req : SyncRequest) : Reads SyncReply := do
  let found ← Reads.select look.find
  match found with
  | none => pure .no
  | some b =>
    let vanished ← vanishedSince b req
    if req.vanishedOnly then pure (.sync vanished [])
    else do
      let uids ← Reads.select (changedUids b.id req.sinceModseq)
      if uids = [] then pure (.sync vanished [])
      else do
        let fetched ← fetchMessages look uids
        pure (.sync vanished (fetched.getD []))

end Ionosphere.Server
