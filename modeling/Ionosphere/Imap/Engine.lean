import Ionosphere.Imap.Types

/-! The state of the IMAP engine and the parts its commands share. Most commands
only send lines, make one backend request and touch a few session fields: they
return an `Answer`, and `Answer.apply` is the one place that says what such a
command does to the engine. A continuation of the source is a value of `Resume`:
the variables it captured. The view it captured is the selected one, which cannot
change while a backend request is pending. -/
namespace Ionosphere.Imap

open Ionosphere.Js Ionosphere.Core

inductive ImapState where
  | notAuthenticated
  | authenticated
  | selected
  deriving DecidableEq

structure SelectedView where
  name : Text
  readWrite : Bool
  uidvalidity : Nat
  uids : List Nat
  uidnext : Nat
  announcedKeywords : List Text
  lastSyncModseq : Nat
  deriving DecidableEq

structure Enabled where
  condstore : Bool := false
  qresync : Bool := false
  imap4rev2 : Bool := false
  deriving DecidableEq

inductive ScramStage where
  | clientFirst
  | clientFinal
  | serverFinal
  deriving DecidableEq

inductive SaslMechanism where
  | plain
  | oauth (mechanism : OAuthMechanism)
  | scram (session : ScramServerSession) (stage : ScramStage) (username : Option Text)
  deriving DecidableEq

structure SaslPending where
  tag : Text
  mechanism : SaslMechanism
  deriving DecidableEq

structure Target where
  seq : Nat
  uid : Nat
  deriving DecidableEq

inductive ListVerb where
  | list
  | lsub
  deriving DecidableEq

structure ListSelect where
  subscribed : Bool := false
  recursivematch : Bool := false
  specialUse : Bool := false
  deriving DecidableEq

structure ListPlan where
  tag : Text
  verb : ListVerb
  select : ListSelect
  patterns : List Text
  returnSubscribed : Bool
  statusItems : Option (List Text)

structure Qresync where
  uidvalidity : Nat
  modseq : Nat
  knownUids : Option (List SeqRange)
  deriving DecidableEq

structure FetchPlan where
  tag : Text
  verb : Text
  name : Text
  items : List FetchItem
  changedSince : Option Nat
  targets : List Target
  needRaw : Bool
  markSeen : Bool

structure Esearch where
  min : Bool := false
  max : Bool := false
  count : Bool := false
  all : Bool := false
  save : Bool := false
  deriving DecidableEq

structure SearchPlan where
  tag : Text
  verb : Text
  uidMode : Bool
  esearch : Option Esearch
  key : SearchKey
  name : Text
  needRaw : Bool
  maxSeq : Nat
  maxUid : Nat

inductive SortOrThread where
  | sort (spec : List SortSpec)
  | thread (algorithm : ThreadAlgorithm)
  deriving DecidableEq

inductive CopyOp where
  | copy
  | move
  deriving DecidableEq

inductive QuotaVerb where
  | getquota
  | getquotaroot
  deriving DecidableEq

inductive Resume where
  | okOrNo (tag verb : Text)
  | getAcl (tag : Text)
  | listRights (tag : Text)
  | myRights (tag : Text)
  | list (plan : ListPlan)
  | status (tag name : Text) (wanted : List Text)
  | quota (tag : Text) (verb : QuotaVerb) (mailbox : Text)
  | select (tag : Text) (readWrite : Bool) (qresync : Option Qresync)
  | selectSync (tag : Text) (readWrite : Bool)
  | fetch (plan : FetchPlan) (offset : Nat)
  | fetchVanished (plan : FetchPlan) (requested : List SeqRange) (maxUid : Nat)
  | append (tag name : Text)
  | replace (tag verb dest : Text)
  | copyMove (tag verb : Text) (op : CopyOp)
  | store (tag verb : Text) (uidMode silent : Bool) (targets : List Target)
  | expunge (tag verb : Text)
  | search (plan : SearchPlan) (offset : Nat) (batchUids hits hitUids : List Nat)
  | sortThread (plan : SearchPlan) (mode : SortOrThread) (offset : Nat) (batchUids : List Nat)
      (hits : List SortItem) (sortMeta : List SortMeta)
  | refresh (taggedOk : Option Text)
  | refreshSync (taggedOk : Option Text) (newWatermark : Nat) (dbKeywords : List Text)

inductive Pending where
  | auth (tag : Text)
  | saslLine (sasl : SaslPending)
  | scramKeys (sasl : SaslPending)
  | backend (resume : Resume)

/-- The mutable fields of `ImapEngine`. -/
structure Engine where
  secure : Bool
  awaitingTls : Bool := false
  compressed : Bool := false
  reader : Reader
  state : ImapState := .notAuthenticated
  selected : Option SelectedView := none
  closed : Bool := false
  pending : Option Pending := none
  idleTag : Option Text := none
  queued : List (List LinePart) := []
  queuedBytes : Nat := 0
  enabled : Enabled := {}
  savedSearch : List Nat := []

abbrev Handler := Engine → Engine × List ImapAction

def say (text : Text) : ImapAction := .reply (.line text)

inductive Out where
  | line (text : Text)
  | binary (bytes : Bytes)

def Out.action : Out → ImapAction
  | .line text => say text
  | .binary bytes => .replyBinary bytes

/-- What an ordinary command or continuation does: lines, then at most one backend
request. `condstore` is `this.enabled.add("CONDSTORE")`, `leave` is
`this.leaveSelected()`; `keywords` and `saved` are new values, when there are any. -/
structure Answer where
  outs : List Out
  request : Option (ImapBackendRequest × Resume) := none
  condstore : Bool := false
  leave : Bool := false
  keywords : Option (List Text) := none
  saved : Option (List Nat) := none

def leaveSelected (e : Engine) : Engine := { e with selected := none, state := .authenticated }

/-- `this.enabled.add("CONDSTORE")`, when `on`. -/
def enableCondstore (on : Bool) (e : Engine) : Engine :=
  { e with enabled := { e.enabled with condstore := e.enabled.condstore || on } }

def announce (keywords : Option (List Text)) (v : SelectedView) : SelectedView :=
  { v with announcedKeywords := keywords.getD v.announcedKeywords }

def Answer.session (a : Answer) (e : Engine) : Engine :=
  let e := enableCondstore a.condstore e
  let e := if a.leave then leaveSelected e else e
  { e with
    selected := e.selected.map (announce a.keywords)
    savedSearch := a.saved.getD e.savedSearch }

/-- `callBackend` registers the continuation and emits the request. -/
def callBackend (req : ImapBackendRequest) (resume : Resume) (e : Engine) :
    Engine × List ImapAction :=
  ({ e with pending := some (.backend resume) }, [.backend req])

def Answer.apply (a : Answer) : Handler := fun e =>
  let e := a.session e
  match a.request with
  | none => (e, a.outs.map Out.action)
  | some (req, resume) =>
    let r := callBackend req resume e
    (r.1, a.outs.map Out.action ++ r.2)

def lines (texts : List Text) : Answer := { outs := texts.map .line }

def bad (tag rest : Text) : Text := tag ++ " BAD " ++ rest

def no (tag rest : Text) : Text := tag ++ " NO " ++ rest

def completed (tag verb : Text) : Text := tag ++ " OK " ++ verb ++ " completed"

def refuse (tag rest : Text) : Answer := lines [bad tag rest]

def call (req : ImapBackendRequest) (resume : Resume) : Answer :=
  { outs := [], request := some (req, resume) }

def noReply (tag verb : Text) (res : NoResponse) : Text :=
  let code := match res.code with
    | none => []
    | some c => if c = [] then [] else "[" ++ c ++ "] "
  tag ++ " NO " ++ code ++ verb ++ " " ++ res.message

/-- The refusal a continuation sends: the backend's, or `failed`. -/
def noOrFailed (tag verb : Text) : ImapBackendResponse → Text
  | .no res => noReply tag verb res
  | _ => no tag (verb ++ " failed")

def systemFlags : List Text := ["\\Answered", "\\Flagged", "\\Deleted", "\\Seen", "\\Draft"]

def flagsLine (keywords : List Text) : Text :=
  "* FLAGS (" ++ join " " (systemFlags ++ keywords) ++ ")"

def addKeyword (u : CaseMap) (announced : List Text) (flag : Text) : List Text :=
  if systemFlags.any fun s => toUpperCase u s = toUpperCase u flag then announced
  else if announced.contains flag then announced
  else announced ++ [flag]

/-- The keywords announced once `flags` are, and the `* FLAGS` line if one is new. -/
def ensureFlagsAnnounced (u : CaseMap) (announced flags : List Text) : List Text × List Text :=
  let next := flags.foldl (addKeyword u) announced
  (next, if next.length = announced.length then [] else [flagsLine next])

/-- `view.uids.splice(view.uids.indexOf(u), 1)`: for an absent uid the index is `-1`,
and `splice(-1, 1)` removes the last entry. -/
def spliceUid (uids : List Nat) (u : Nat) : List Nat :=
  if u ∈ uids then uids.erase u else uids.dropLast

def expungeOrder (uids : List Nat) (removed : List Nat) : List Nat :=
  (removed.filterMap fun u => uids.idxOf? u).insertionSort (· ≥ ·)

/-- The removal announcements and the uids left: `VANISHED` for a client that
enabled QRESYNC, otherwise `EXPUNGE`, highest number first. -/
def removal (qresync : Bool) (removed uids : List Nat) : List Nat × List Reply :=
  if qresync then
    let present := removed.filter fun u => uids.contains u
    (present.foldl spliceUid uids,
      if present = [] then [] else [.vanished (uidSetRanges present)])
  else
    let idxs := expungeOrder uids removed
    (idxs.foldl List.eraseIdx uids, idxs.map fun i => .expunge (i + 1))

def removalActions (removed : List Nat) : Handler := fun e =>
  match e.selected with
  | none => (e, [])
  | some view =>
    let r := removal e.enabled.qresync removed view.uids
    ({ e with selected := some { view with uids := r.1 } }, r.2.map .reply)

/-- The uids APPEND pushes: those the view does not have, each once. -/
def newUids (uids added : List Nat) : List Nat :=
  added.foldl (fun acc u => if uids.contains u || acc.contains u then acc else acc ++ [u]) []

def addUids (added : List Nat) (view : SelectedView) : SelectedView :=
  { view with
    uids := sortUids (view.uids ++ added)
    uidnext := added.foldl (fun n u => Nat.max n (u + 1)) view.uidnext }

def resolveTargets (ranges : List SeqRange) (uidMode : Bool) (e : Engine) : List Target :=
  match e.selected with
  | none => []
  | some view =>
    let numbered := view.uids.zipIdx.map fun p => (⟨p.2 + 1, p.1⟩ : Target)
    if uidMode then
      let maxUid := view.uids.getLast?.getD 0
      numbered.filter fun t => matchSequenceSet ranges t.uid maxUid
    else numbered.filter fun t => matchSequenceSet ranges t.seq view.uids.length

/-- `$` is the saved search, kept as uids and read in the mode it is used in. -/
def resolveSetArg (text : Text) (uidMode : Bool) (e : Engine) : Option (List SeqRange) :=
  if text ≠ ['$'] then parseSequenceSet text
  else
    match e.selected with
    | none => none
    | some view =>
      let numbers := e.savedSearch.filterMap fun uid =>
        if uidMode then if view.uids.contains uid then some uid else none
        else (view.uids.idxOf? uid).map (· + 1)
      some ((sortUids numbers).map fun n => ⟨.num n, .num n⟩)

def setArg (arg : Option ImapValue) (uidMode : Bool) (e : Engine) : Option (List SeqRange) :=
  match arg.bind valueText with
  | none => none
  | some text => resolveSetArg text uidMode e

def isDigits (s : Text) : Bool := !s.isEmpty && s.all isDigit

/-- `Number(digits)`, rounded as a float is. -/
def digitsNumber (digits : Text) : Nat := roundInt (digitsValue 10 digits)

def upperText (u : CaseMap) (v : Option ImapValue) : Option Text :=
  (v.bind valueText).map (toUpperCase u)

def mailboxArg (u : CaseMap) (cmd : ParsedCommand) (i : Nat) : Option Text :=
  (cmd.args[i]?.bind valueText).map (normalizeMailboxName u)

def textArg (cmd : ParsedCommand) (i : Nat) : Option Text := cmd.args[i]?.bind valueText

end Ionosphere.Imap
