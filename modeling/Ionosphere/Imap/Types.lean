import Ionosphere.Core.Scram
import Ionosphere.Imap.MailboxName

/-! What the IMAP engine exchanges with its adapter: backend requests and answers,
actions, and the data of a message. The modules that only format or match message
data are taken as functions (`Formats`); no result depends on what they return. -/
namespace Ionosphere.Imap

open Ionosphere.Js Ionosphere.Core

instance : Coe String Text := ⟨String.toList⟩

structure ImapMailbox where
  name : Text
  role : Option Text := none
  subscribed : Option Bool := none
  uidvalidity : Nat
  uidnext : Nat
  highestmodseq : Nat
  totalCount : Nat := 0
  unreadCount : Nat := 0
  totalBytes : Nat := 0
  mailboxId : Option Text := none
  deletedCount : Option Nat := none
  deletedBytes : Option Nat := none
  readable : Option Bool := none
  deriving DecidableEq

inductive StoreMode where
  | set
  | add
  | remove
  deriving DecidableEq

structure AppendItem where
  raw : Bytes
  flags : List Text
  internalDateMs : Option Int
  deriving DecidableEq

inductive ImapBackendRequest where
  | listMailboxes (statusRights deletedCounts : Bool)
  | getQuota
  | createMailbox (name : Text)
  | deleteMailbox (name : Text)
  | renameMailbox (src dst : Text)
  | getAcl (name : Text)
  | setAcl (name identifier rights : Text)
  | deleteAcl (name identifier : Text)
  | listRights (name identifier : Text)
  | myRights (name : Text)
  | setSubscribed (name : Text) (subscribed : Bool)
  | selectMailbox (name : Text)
  | expungeMailbox (name : Text)
  | fetchMessages (name : Text) (uids : List Nat) (needRaw markSeen needSortKeys : Bool)
  | storeFlags (name : Text) (uids : List Nat) (mode : StoreMode) (flags : List Text)
      (unchangedSince : Option Nat)
  | syncSince (name : Text) (sinceModseq : Nat) (knownUids : Option (List SeqRange))
      (vanishedOnly : Bool)
  | expunge (name : Text) (uids : Option (List Nat))
  | appendMessage (name : Text) (flags : List Text) (internalDateMs : Option Int) (raw : Bytes)
      (items : List AppendItem)
  | replaceMessage (src dst : Text) (oldUid : Nat) (raw : Bytes) (flags : List Text)
      (internalDateMs : Option Int)
  | copyMessages (src dst : Text) (uids : List Nat)
  | moveMessages (src dst : Text) (uids : List Nat)
  deriving DecidableEq

structure ImapSortKeys where
  subjectBase : Text := []
  sentAtMs : Int := 0
  threadId : Text := []
  sender : Text := []
  recipient : Text := []
  cc : Text := []
  deriving DecidableEq

structure ImapFetchData where
  uid : Nat
  emailId : Option Text := none
  threadId : Option Text := none
  flags : List Text
  internalDateMs : Int
  saveDateMs : Option Int := none
  size : Nat
  modseq : Nat
  raw : Option Bytes := none
  sortKeys : Option ImapSortKeys := none
  deriving DecidableEq

structure FlagChange where
  uid : Nat
  flags : List Text
  modseq : Option Nat
  deriving DecidableEq

structure SyncChange where
  uid : Nat
  flags : List Text
  modseq : Nat
  deriving DecidableEq

structure NoResponse where
  code : Option Text
  message : Text
  deriving DecidableEq

inductive ImapBackendResponse where
  | mailboxes (mailboxes : List ImapMailbox)
  | selected (mailbox : ImapMailbox) (uids : List Nat) (firstUnseenSeq : Option Nat)
      (keywords : List Text)
  | messages (messages : List ImapFetchData)
  | flagsUpdated (updated : List FlagChange) (failed : List Nat)
  | sync (vanished : List Nat) (changed : List SyncChange)
  | expunged (uids : List Nat)
  | appended (uidvalidity uid : Nat) (uids : Option (List Nat))
  | replaced (uidvalidity uid : Nat) (expungedUid : Option Nat)
  | copied (uidvalidity : Nat) (srcUids dstUids : List Nat)
  | acl (mailbox : Text) (entries : List (Text × Text))
  | rights (mailbox identifier rights : Text)
  | quota (usedBytes limitBytes messageCount : Nat)
  | ok
  | no (res : NoResponse)
  deriving DecidableEq

/-- A reply line. The three that renumber the client's messages are kept as data;
`Reply.text` is what goes on the wire. `VANISHED (EARLIER)` renumbers nothing and
is an ordinary line. -/
inductive Reply where
  | exists (count : Nat)
  | expunge (seq : Nat)
  | vanished (set : List (Nat × Nat))
  | line (text : Text)
  deriving DecidableEq

inductive ImapAction where
  | reply (r : Reply)
  | replyBinary (bytes : Bytes)
  | close
  | startTls
  | startCompress
  | auth (user pass : Text)
  | scramKeys (user : Text)
  | authVerified (tag user : Text)
  | authFailed (user : Option Text) (mechanism : Text)
  | backend (req : ImapBackendRequest)
  deriving DecidableEq

inductive SectionSub where
  | header
  | headerFields
  | headerFieldsNot
  | text
  | mime
  deriving DecidableEq

structure SectionSpec where
  path : List Nat
  sub : Option SectionSub
  fields : List Text
  deriving DecidableEq

structure PartialRange where
  start : Nat
  count : Nat
  deriving DecidableEq

inductive FetchItem where
  | flags
  | uid
  | modseq
  | internaldate
  | savedate
  | emailid
  | threadid
  | rfc822size
  | envelope
  | body
  | bodystructure
  | «section» (peek : Bool) (spec : SectionSpec) (range : Option PartialRange) (label : Text)
  | binary (peek : Bool) (path : List Nat) (range : Option PartialRange) (label : Text)
  | binarySize (path : List Nat) (label : Text)
  deriving DecidableEq

inductive BinaryContent where
  | bytes (bytes : Bytes)
  | unknownCte
  deriving DecidableEq

inductive DateOp where
  | before
  | on
  | since
  deriving DecidableEq

inductive SearchKey where
  | all
  | none
  | flag (flag : Text) (negate : Bool)
  | larger (n : Nat)
  | smaller (n : Nat)
  | uid (ranges : List SeqRange)
  | seq (ranges : List SeqRange)
  | internalDate (op : DateOp) (ms : Int)
  | sentDate (op : DateOp) (ms : Int)
  | saveDate (op : DateOp) (ms : Int)
  | header (field value : Text)
  | text (value : Text) (includeHeaders : Bool)
  | modseq (n : Nat)
  | not (key : SearchKey)
  | or (a b : SearchKey)
  | and (keys : List SearchKey)

structure SearchMessage where
  seq : Nat
  uid : Nat
  flags : List Text
  size : Nat
  internalDateMs : Int
  saveDateMs : Option Int
  modseq : Nat
  raw : Option Bytes

inductive SortKey where
  | arrival
  | cc
  | date
  | sender
  | size
  | subject
  | recipient
  deriving DecidableEq

structure SortSpec where
  key : SortKey
  reverse : Bool
  deriving DecidableEq

structure SortItem where
  num : Nat
  seq : Nat
  uid : Nat
  keys : ImapSortKeys
  deriving DecidableEq

structure SortMeta where
  uid : Nat
  internalDateMs : Int
  size : Nat
  deriving DecidableEq

inductive ThreadAlgorithm where
  | orderedsubject
  | references
  deriving DecidableEq

/-- The pure functions of the modules beside the engine: FETCH items and message
parts, SEARCH programs, SORT and THREAD lines, LIST patterns. The error of
`parseSearchProgram` is `badCharset`. -/
structure Formats where
  parseFetchItems : List ImapValue → Option (List FetchItem)
  parseImapDateTime : Text → Option Int
  formatInternalDate : Int → Text
  formatEnvelope : Bytes → Text
  formatBodyStructure : Bytes → Bool → Text
  extractSection : Bytes → SectionSpec → Option Bytes
  extractBinary : Bytes → List Nat → Option BinaryContent
  parseSearchProgram : List ImapValue → Except Bool SearchKey
  searchNeedsRaw : SearchKey → Bool
  evaluateSearch : SearchKey → SearchMessage → Nat → Nat → Bool
  parseSortSpec : List ImapValue → Option (List SortSpec)
  formatSortLine : List SortItem → List SortSpec → List SortMeta → Text
  formatThreadLine : List SortItem → ThreadAlgorithm → Text
  matchesListPattern : Text → Text → Bool

structure Options where
  hostname : Text
  secure : Bool := false
  allowInsecureAuth : Bool := false
  tlsAvailable : Bool := false
  scramOffered : Bool := false
  scramDecoySecret : Bytes := []
  maxLineBytes : Nat := maxImapLineBytes
  maxLiteralBytes : Nat := maxMessageBytes

/-- What an engine is built over. -/
structure Setup where
  host : Host
  formats : Formats
  options : Options

end Ionosphere.Imap
