import Ionosphere.Imap.MailboxCommands

/-! Commands on the selected mailbox and its messages. The continuations of SELECT,
APPEND, REPLACE, EXPUNGE, MOVE and the refresh behind NOOP and IDLE are the only
code that changes `view.uids`; every other one is an `Answer`. -/
namespace Ionosphere.Imap

open Ionosphere.Js Ionosphere.Core

section

variable (s : Setup)

def selectVerb (readWrite : Bool) : Text := if readWrite then "SELECT" else "EXAMINE"

def qresyncArgs : List ImapValue → Option Qresync
  | args =>
    let uv := ((args[0]?.bind valueText).getD [])
    let ms := ((args[1]?.bind valueText).getD [])
    if isDigits uv && isDigits ms then
      some ⟨digitsNumber uv, digitsNumber ms, (args[2]?.bind valueText).bind parseSequenceSet⟩
    else none

/-- The SELECT parameters from left to right: whether CONDSTORE was named before the
end or the error, and the QRESYNC one or the error. -/
def selectParams (verb : Text) (qresyncOn : Bool) :
    List ImapValue → Option Qresync → Bool × Except Text (Option Qresync)
  | [], q => (false, .ok q)
  | it :: rest, q =>
    let p := (valueText it).map (toUpperCase s.host.cases)
    if p = some "CONDSTORE".toList then
      (true, (selectParams verb qresyncOn rest q).2)
    else if p = some "QRESYNC".toList then
      if !qresyncOn then (false, .error "QRESYNC not enabled")
      else
        match rest with
        | .list args :: rest =>
          match qresyncArgs args with
          | some q => selectParams verb qresyncOn rest (some q)
          | none => (false, .error "invalid QRESYNC parameters")
        | _ => (false, .error "invalid QRESYNC parameters")
    else (false, .error ("unknown " ++ verb ++ " parameter"))

def cmdSelect (cmd : ParsedCommand) (readWrite : Bool) (e : Engine) : Answer :=
  let verb := selectVerb readWrite
  match mailboxArg s.host.cases cmd 0 with
  | none => refuse cmd.tag (verb ++ " expects mailbox name")
  | some name =>
    let request (q : Option Qresync) : Answer :=
      { call (.selectMailbox name) (.select cmd.tag readWrite q) with leave := true }
    match cmd.args with
    | [_] => request none
    | [_, .list params] =>
      match selectParams s verb e.enabled.qresync params none with
      | (condstore, .ok q) => { request q with condstore := condstore }
      | (condstore, .error why) => { refuse cmd.tag why with condstore := condstore }
    | [_, _] => refuse cmd.tag (verb ++ " invalid parameters")
    | _ => refuse cmd.tag (verb ++ " expects mailbox name")

def openView (m : ImapMailbox) (readWrite : Bool) (uids : List Nat) (keywords : List Text) :
    SelectedView :=
  { name := m.name
    readWrite := readWrite
    uidvalidity := m.uidvalidity
    uids := uids
    uidnext := Nat.max m.uidnext (uids.getLast?.getD 0 + 1)
    announcedKeywords := keywords.eraseDups
    lastSyncModseq := m.highestmodseq }

/-- The lines after `FLAGS` and `EXISTS`. -/
def selectLines (m : ImapMailbox) (readWrite rev2 : Bool) (firstUnseenSeq : Option Nat) :
    List Text :=
  (if rev2 then [] else ["* 0 RECENT".toList]) ++
    ["* OK [UIDVALIDITY " ++ natText m.uidvalidity ++ "] UIDs valid"] ++
    m.mailboxId.toList.map (fun (id : Text) => "* OK [MAILBOXID (" ++ id ++ ")] object id") ++
    ["* OK [UIDNEXT " ++ natText m.uidnext ++ "] predicted next UID",
      "* OK [HIGHESTMODSEQ " ++ natText m.highestmodseq ++ "] modseq",
      if readWrite then "* OK [PERMANENTFLAGS (\\Answered \\Flagged \\Deleted \\Seen \\Draft \\*)] flags"
      else "* OK [PERMANENTFLAGS ()] read-only"] ++
    (match firstUnseenSeq with
      | some n => if rev2 then [] else ["* OK [UNSEEN " ++ natText n ++ "] first unseen"]
      | none => [])

def selectTagged (tag : Text) (readWrite : Bool) : Text :=
  tag ++ " OK [" ++ (if readWrite then "READ-WRITE".toList else "READ-ONLY".toList) ++ "] " ++
    selectVerb readWrite ++ " completed"

def resumeSelect (tag : Text) (readWrite : Bool) (qresync : Option Qresync)
    (res : ImapBackendResponse) : Handler := fun e =>
  match res with
  | .selected m uids firstUnseenSeq keywords =>
    let view := openView m readWrite uids keywords
    let e := { e with selected := some view, state := .selected, savedSearch := [] }
    let actions := [say (flagsLine keywords), .reply (.exists uids.length)] ++
      (selectLines m readWrite e.enabled.imap4rev2 firstUnseenSeq).map say
    match qresync.filter fun q => q.uidvalidity = m.uidvalidity with
    | some q =>
      let r := callBackend (.syncSince m.name q.modseq q.knownUids false)
        (.selectSync tag readWrite) e
      (r.1, actions ++ r.2)
    | none => (e, actions ++ [say (selectTagged tag readWrite)])
  | res => (e, [say (noOrFailed tag (selectVerb readWrite) res)])

/-- `* FLAGS` when needed, for the view's announced keywords, if there is a view. -/
def announceFlags (announced : Option (List Text)) (flags : List Text) :
    Option (List Text) × List Text :=
  match announced with
  | none => (none, [])
  | some a =>
    let r := ensureFlagsAnnounced s.host.cases a flags
    (some r.1, r.2)

def announcedOf (e : Engine) : Option (List Text) := e.selected.map (·.announcedKeywords)

def viewUids (e : Engine) : List Nat := (e.selected.map (·.uids)).getD []

def syncLines (modseqs : Bool) (uids : List Nat) :
    List SyncChange → Option (List Text) → Option (List Text) × List Text
  | [], announced => (announced, [])
  | c :: cs, announced =>
    match uids.idxOf? c.uid with
    | none => syncLines modseqs uids cs announced
    | some i =>
      let a := announceFlags s announced c.flags
      let r := syncLines modseqs uids cs a.1
      (r.1, a.2 ++ ["* " ++ natText (i + 1) ++ " FETCH (UID " ++ natText c.uid ++ " FLAGS (" ++
        join " " c.flags ++ ")" ++
        (if modseqs then " MODSEQ (" ++ natText c.modseq ++ ")" else []) ++ ")"] ++ r.2)

def vanishedEarlier (uids : List Nat) : List Text :=
  if uids = [] then [] else ["* VANISHED (EARLIER) " ++ formatUidSet uids]

def selectSyncAnswer (tag : Text) (readWrite : Bool) (e : Engine) : ImapBackendResponse → Answer
  | .sync vanished changed =>
    let r := syncLines s true (viewUids e) changed (announcedOf e)
    { lines (vanishedEarlier vanished ++ r.2 ++ [selectTagged tag readWrite]) with keywords := r.1 }
  | _ => lines [selectTagged tag readWrite]

def cmdClose (cmd : ParsedCommand) (view : SelectedView) : Answer :=
  if view.readWrite then
    { call (.expungeMailbox view.name) (.okOrNo cmd.tag "CLOSE") with leave := true }
  else { lines [completed cmd.tag "CLOSE"] with leave := true }

def fetchBatchRaw : Nat := 32

def fetchBatchMeta : Nat := 512

def batchSize (needRaw : Bool) : Nat := if needRaw then fetchBatchRaw else fetchBatchMeta

def uidVerb (uidMode : Bool) (verb : Text) : Text := (if uidMode then "UID ".toList else []) ++ verb

/-- `wire.charCodeAt(i) & 0xff`. -/
def wireToBytes (wire : Text) : Bytes := wire.map fun c => UInt8.ofNat c.toNat

def literalWire (bytes : Bytes) : Text :=
  ['{'] ++ natText bytes.length ++ ['}', '\r', '\n'] ++ latin1Decode bytes

def binaryLiteralWire (bytes : Bytes) : Text :=
  (if bytes.contains 0 then ['~'] else []) ++ literalWire bytes

def cutPartial (range : Option PartialRange) (bytes : Bytes) : Bytes :=
  match range with
  | none => bytes
  | some r => (bytes.drop r.start).take r.count

/-- The wire text of one item; `none` is a transfer encoding nobody can decode. -/
def fetchItemWire (it : FetchItem) (uid : Nat) (data : ImapFetchData) : Option Text :=
  let raw := data.raw.getD []
  match it with
  | .flags => some ("FLAGS (" ++ join " " data.flags ++ ")")
  | .uid => some ("UID " ++ natText uid)
  | .modseq => some ("MODSEQ (" ++ natText data.modseq ++ ")")
  | .internaldate =>
    some ("INTERNALDATE \"" ++ s.formats.formatInternalDate data.internalDateMs ++ "\"")
  | .emailid => some ("EMAILID " ++ (match data.emailId with
      | none => "NIL".toList
      | some id => "(" ++ id ++ ")"))
  | .threadid => some ("THREADID " ++ (match data.threadId with
      | none => "NIL".toList
      | some id => if id = [] then "NIL".toList else "(" ++ id ++ ")"))
  | .savedate => some ("SAVEDATE " ++ (match data.saveDateMs with
      | none => "NIL".toList
      | some ms => "\"" ++ s.formats.formatInternalDate ms ++ "\""))
  | .rfc822size => some ("RFC822.SIZE " ++ natText data.size)
  | .envelope => some ("ENVELOPE " ++ s.formats.formatEnvelope raw)
  | .body => some ("BODY " ++ s.formats.formatBodyStructure raw false)
  | .bodystructure => some ("BODYSTRUCTURE " ++ s.formats.formatBodyStructure raw true)
  | .section _ spec range label =>
    some (label ++ " " ++ (match s.formats.extractSection raw spec with
      | none => "NIL".toList
      | some bytes => literalWire (cutPartial range bytes)))
  | .binary _ path range label =>
    match s.formats.extractBinary raw path with
    | none => some (label ++ " NIL")
    | some .unknownCte => none
    | some (.bytes bytes) => some (label ++ " " ++ binaryLiteralWire (cutPartial range bytes))
  | .binarySize path label =>
    match s.formats.extractBinary raw path with
    | none => some (label ++ " 0")
    | some .unknownCte => none
    | some (.bytes bytes) => some (label ++ " " ++ natText bytes.length)

/-- `byUid.get(uid)`: of two messages with one uid the later counts. -/
def byUid (messages : List ImapFetchData) (uid : Nat) : Option ImapFetchData :=
  messages.reverse.find? (·.uid = uid)

structure Emitted where
  outs : List Out
  announced : Option (List Text)
  unknownCte : Bool

def fetchEmit (plan : FetchPlan) (messages : List ImapFetchData) :
    List Target → Option (List Text) → Emitted
  | [], announced => ⟨[], announced, false⟩
  | t :: ts, announced =>
    match byUid messages t.uid with
    | none => fetchEmit plan messages ts announced
    | some data =>
      if plan.changedSince.any fun n => data.modseq ≤ n then fetchEmit plan messages ts announced
      else
        match plan.items.mapM fun it => fetchItemWire s it t.uid data with
        | none => ⟨[], announced, true⟩
        | some parts =>
          let a := if plan.items.contains .flags then announceFlags s announced data.flags
            else (announced, [])
          let r := fetchEmit plan messages ts a.1
          ⟨a.2.map .line ++ [.binary (wireToBytes ("* " ++ natText t.seq ++ " FETCH (" ++
            join " " parts ++ ")\r\n"))] ++ r.outs, r.announced, r.unknownCte⟩

def fetchFrom (plan : FetchPlan) (offset : Nat) : Answer :=
  let batch := (plan.targets.drop offset).take (batchSize plan.needRaw)
  call (.fetchMessages plan.name (batch.map (·.uid)) plan.needRaw plan.markSeen false)
    (.fetch plan offset)

def fetchAll (plan : FetchPlan) : Answer :=
  if plan.targets = [] then lines [completed plan.tag plan.verb] else fetchFrom plan 0

def Answer.after (outs : List Out) (a : Answer) : Answer := { a with outs := outs ++ a.outs }

def fetchAnswer (plan : FetchPlan) (offset : Nat) (e : Engine) : ImapBackendResponse → Answer
  | .messages messages =>
    let batch := (plan.targets.drop offset).take (batchSize plan.needRaw)
    let r := fetchEmit s plan messages batch (announcedOf e)
    let rest : Answer :=
      if r.unknownCte then
        lines [no plan.tag ("[UNKNOWN-CTE] " ++ plan.verb ++ " cannot decode section")]
      else if offset + batchSize plan.needRaw < plan.targets.length then
        fetchFrom plan (offset + batchSize plan.needRaw)
      else lines [completed plan.tag plan.verb]
    { rest.after r.outs with keywords := r.announced }
  | res => lines [noOrFailed plan.tag plan.verb res]

def fetchVanishedAnswer (plan : FetchPlan) (requested : List SeqRange) (maxUid : Nat) :
    ImapBackendResponse → Answer
  | .sync vanished _ =>
    let gone := vanished.filter fun uid => matchSequenceSet requested uid maxUid
    (fetchAll plan).after ((vanishedEarlier gone).map .line)
  | res => lines [noOrFailed plan.tag plan.verb res]

structure FetchModifiers where
  changedSince : Option Nat := none
  vanished : Bool := false

def fetchModifiers : List ImapValue → FetchModifiers → Option FetchModifiers
  | [], m => some m
  | .atom a :: rest, m =>
    let name := toUpperCase s.host.cases a
    if name = "CHANGEDSINCE".toList ∧ m.changedSince = none then
      match rest with
      | v :: rest =>
        let n := (valueText v).getD []
        if isDigits n then fetchModifiers rest { m with changedSince := some (digitsNumber n) }
        else none
      | [] => none
    else if name = "VANISHED".toList ∧ !m.vanished then
      fetchModifiers rest { m with vanished := true }
    else none
  | _ :: _, _ => none

def modifierList (itemArgs : List ImapValue) : Option (List ImapValue) :=
  match itemArgs.getLast? with
  | some (.list items) =>
    let first := upperText s.host.cases items.head?
    if 2 ≤ itemArgs.length ∧
        (first = some "CHANGEDSINCE".toList ∨ first = some "VANISHED".toList) then some items
    else none
  | _ => none

def checkModifiers (verb : Text) (uidMode qresyncOn : Bool) (mods : List ImapValue) :
    Except Text FetchModifiers :=
  match fetchModifiers s mods {} with
  | none => .error (verb ++ " invalid CHANGEDSINCE")
  | some m =>
    if m.vanished ∧ m.changedSince = none then .error "VANISHED requires CHANGEDSINCE"
    else if m.vanished ∧ !uidMode then .error "VANISHED requires UID FETCH"
    else if m.vanished ∧ !qresyncOn then .error "QRESYNC not enabled"
    else .ok m

def FetchItem.needsRaw : FetchItem → Bool
  | .envelope | .body | .bodystructure | .section .. | .binary .. | .binarySize .. => true
  | _ => false

def FetchItem.marksSeen : FetchItem → Bool
  | .section peek .. | .binary peek .. => !peek
  | _ => false

def SeqNumber.pin (max : Nat) (n : SeqNumber) : SeqNumber := .num (n.resolve max)

/-- The command once its arguments are read: `VANISHED` asks the backend first. -/
def fetchWith (cmd : ParsedCommand) (uidMode : Bool) (view : SelectedView) (e : Engine)
    (ranges : List SeqRange) (items : List FetchItem) (mods : FetchModifiers) : Answer :=
  let items := if uidMode ∧ !items.contains .uid then items ++ [.uid] else items
  let items := if mods.changedSince.isSome ∧ !items.contains .modseq then items ++ [.modseq]
    else items
  let plan : FetchPlan :=
    { tag := cmd.tag
      verb := uidVerb uidMode "FETCH"
      name := view.name
      items := items
      changedSince := mods.changedSince
      targets := resolveTargets ranges uidMode e
      needRaw := items.any FetchItem.needsRaw
      markSeen := view.readWrite && items.any FetchItem.marksSeen }
  match mods.vanished, mods.changedSince with
  | true, some since =>
    let maxUid := view.uids.getLast?.getD view.uidnext
    let requested := ranges.map fun r => (⟨r.start.pin maxUid, r.stop.pin maxUid⟩ : SeqRange)
    call (.syncSince view.name since (some requested) true) (.fetchVanished plan requested maxUid)
  | _, _ => fetchAll plan

def cmdFetch (cmd : ParsedCommand) (uidMode : Bool) (view : SelectedView) (e : Engine) : Answer :=
  let verb := uidVerb uidMode "FETCH"
  let ranges := setArg cmd.args[0]? uidMode e
  let run (itemArgs : List ImapValue) (mods : FetchModifiers) : Answer :=
    match ranges, s.formats.parseFetchItems itemArgs with
    | some ranges, some items => fetchWith cmd uidMode view e ranges items mods
    | _, _ => refuse cmd.tag (verb ++ " invalid arguments")
  match modifierList s (cmd.args.drop 1) with
  | none => run (cmd.args.drop 1) {}
  | some list =>
    match checkModifiers s verb uidMode e.enabled.qresync list with
    | .error why => refuse cmd.tag why
    | .ok mods => { run (cmd.args.drop 1).dropLast mods with condstore := true }

def storeItem (text : Text) : Option (StoreMode × Bool) :=
  let (mode, rest) := match text with
    | '+' :: rest => (StoreMode.add, rest)
    | '-' :: rest => (StoreMode.remove, rest)
    | rest => (StoreMode.set, rest)
  if rest = "FLAGS".toList then some (mode, false)
  else if rest = "FLAGS.SILENT".toList then some (mode, true)
  else none

def unchangedSinceArg (arg : Option ImapValue) : Except Unit (Option Nat) :=
  match arg with
  | some (.list items) =>
    if upperText s.host.cases items.head? = some "UNCHANGEDSINCE".toList then
      let n := (items[1]?.bind valueText).getD []
      if isDigits n ∧ items.length = 2 then .ok (some (digitsNumber n)) else .error ()
    else .ok none
  | _ => .ok none

def storeFlagValues (args : List ImapValue) : List ImapValue :=
  match args with
  | [.list items] => items
  | args => args

def storeWith (cmd : ParsedCommand) (uidMode : Bool) (view : SelectedView) (e : Engine)
    (unchangedSince : Option Nat) (args : List ImapValue) : Answer :=
  let verb := uidVerb uidMode "STORE"
  match setArg cmd.args[0]? uidMode e, (upperText s.host.cases args.head?).filter (· ≠ []) with
  | some ranges, some itemText =>
    match storeItem itemText with
    | none => refuse cmd.tag (verb ++ " unknown data item")
    | some (mode, silent) =>
      match (storeFlagValues args.tail).mapM valueText with
      | none => refuse cmd.tag (verb ++ " invalid flag")
      | some flags =>
        let targets := resolveTargets ranges uidMode e
        if targets = [] then lines [completed cmd.tag verb]
        else call (.storeFlags view.name (targets.map (·.uid)) mode flags unchangedSince)
          (.store cmd.tag verb uidMode silent targets)
  | _, _ => refuse cmd.tag (verb ++ " invalid arguments")

def readOnly (tag : Text) : Answer := lines [no tag "[READ-ONLY] mailbox is read-only"]

def cmdStore (cmd : ParsedCommand) (uidMode : Bool) (view : SelectedView) (e : Engine) : Answer :=
  if !view.readWrite then readOnly cmd.tag
  else
    match unchangedSinceArg s cmd.args[1]? with
    | .error () => refuse cmd.tag (uidVerb uidMode "STORE" ++ " invalid UNCHANGEDSINCE")
    | .ok none => storeWith s cmd uidMode view e none (cmd.args.drop 1)
    | .ok (some n) =>
      { storeWith s cmd uidMode view e (some n) (cmd.args.drop 2) with condstore := true }

/-- `seqByUid.get(uid)`. -/
def seqByUid (targets : List Target) (uid : Nat) : Option Nat :=
  (targets.reverse.find? (·.uid = uid)).map (·.seq)

def storeLines (uidMode condstore : Bool) (targets : List Target) :
    List FlagChange → Option (List Text) → Option (List Text) × List Text
  | [], announced => (announced, [])
  | c :: cs, announced =>
    match seqByUid targets c.uid with
    | none => storeLines uidMode condstore targets cs announced
    | some seq =>
      let a := announceFlags s announced c.flags
      let r := storeLines uidMode condstore targets cs a.1
      let modseqPart := match c.modseq with
        | some n => if condstore then " MODSEQ (" ++ natText n ++ ")" else []
        | none => []
      (r.1, a.2 ++ ["* " ++ natText seq ++ " FETCH (FLAGS (" ++ join " " c.flags ++ ")" ++
        (if uidMode then " UID " ++ natText c.uid else []) ++ modseqPart ++ ")"] ++ r.2)

def storeAnswer (tag verb : Text) (uidMode silent : Bool) (targets : List Target) (e : Engine) :
    ImapBackendResponse → Answer
  | .flagsUpdated updated failed =>
    let r := if silent then (announcedOf e, [])
      else storeLines s uidMode e.enabled.condstore targets updated (announcedOf e)
    let failedSet := if uidMode then failed else failed.filterMap (seqByUid targets)
    let final := if failed = [] then completed tag verb
      else tag ++ " OK [MODIFIED " ++ formatUidSet failedSet ++ "] conditional " ++ verb ++
        " failed for some messages"
    { lines (r.2 ++ [final]) with keywords := r.1 }
  | res => lines [noOrFailed tag verb res]

end

end Ionosphere.Imap
