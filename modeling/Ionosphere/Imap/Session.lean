import Ionosphere.Imap.ViewCommands

/-! The IMAP session: authentication, the command table, and the public methods.
Every line that is handled is given the nonce the host would draw for it; only a
SCRAM exchange reads it. A public method the source refuses by an exception
returns `none`; the replies drained behind an answer are taken to fit in one call. -/
namespace Ionosphere.Imap

open Ionosphere.Js Ionosphere.Core

section

variable (s : Setup)

def baseCapabilities : List Text :=
  ["IMAP4rev1", "IMAP4rev2", "LITERAL-", "SASL-IR", "ID", "ENABLE", "NAMESPACE", "CHILDREN",
    "SPECIAL-USE", "UNSELECT", "UIDPLUS", "MOVE", "IDLE", "CONDSTORE", "QRESYNC", "ESEARCH",
    "SEARCHRES", "BINARY", "SAVEDATE", "MULTIAPPEND", "REPLACE", "OBJECTID", "SORT",
    "THREAD=ORDEREDSUBJECT", "THREAD=REFERENCES", "LIST-EXTENDED", "LIST-STATUS", "QUOTA",
    "QUOTA=RES-STORAGE", "QUOTA=RES-MESSAGE"]

def authAllowed (e : Engine) : Bool := e.secure || s.options.allowInsecureAuth

def starttlsOffered (e : Engine) : Bool := s.options.tlsAvailable && !e.secure

def capabilities (e : Engine) : List Text :=
  baseCapabilities ++
    (if e.state ≠ .notAuthenticated ∧ !e.compressed then ["COMPRESS=DEFLATE".toList] else []) ++
    (if e.state = .notAuthenticated then
      (if starttlsOffered s e then ["STARTTLS".toList] else []) ++
        (if authAllowed s e then
          (if s.options.scramOffered then ["AUTH=SCRAM-SHA-256".toList] else []) ++
            ["AUTH=PLAIN".toList, "AUTH=XOAUTH2".toList, "AUTH=OAUTHBEARER".toList]
        else ["LOGINDISABLED".toList])
    else [])

def capabilityText (e : Engine) : Text := "CAPABILITY " ++ join " " (capabilities s e)

def greeting (e : Engine) : List ImapAction :=
  [say ("* OK [" ++ capabilityText s e ++ "] " ++ s.options.hostname ++ " IMAP ready")]

def cmdLogout (cmd : ParsedCommand) : Handler := fun e =>
  ({ e with closed := true },
    [say ("* BYE " ++ s.options.hostname ++ " logging out"), say (completed cmd.tag "LOGOUT"),
      .close])

def cmdStartTls (cmd : ParsedCommand) : Handler := fun e =>
  if e.secure then (e, [say (bad cmd.tag "TLS already active")])
  else if !s.options.tlsAvailable then (e, [say (no cmd.tag "STARTTLS not available")])
  else if e.pending.isSome || e.idleTag.isSome then
    (e, [say (bad cmd.tag "STARTTLS not allowed mid-command")])
  else
    ({ e with awaitingTls := true, queued := [], queuedBytes := 0 },
      [say (cmd.tag ++ " OK Begin TLS negotiation now"), .startTls])

def cmdCompress (cmd : ParsedCommand) : Handler := fun e =>
  if e.state = .notAuthenticated then
    (e, [say (bad cmd.tag "COMPRESS not allowed before authentication")])
  else if upperText s.host.cases cmd.args[0]? ≠ some "DEFLATE".toList then
    (e, [say (bad cmd.tag "COMPRESS unsupported algorithm")])
  else if e.compressed then
    (e, [say (no cmd.tag "[COMPRESSIONACTIVE] compression already active")])
  else
    ({ e with compressed := true }, [say (cmd.tag ++ " OK DEFLATE active"), .startCompress])

inductive Extension where
  | condstore
  | qresync
  | imap4rev2
  deriving DecidableEq

def Extension.text : Extension → Text
  | .condstore => "CONDSTORE"
  | .qresync => "QRESYNC"
  | .imap4rev2 => "IMAP4rev2"

def enablable : List Extension := [.condstore, .qresync, .imap4rev2]

def Enabled.has (en : Enabled) : Extension → Bool
  | .condstore => en.condstore
  | .qresync => en.qresync
  | .imap4rev2 => en.imap4rev2

def Enabled.add (en : Enabled) : Extension → Enabled
  | .condstore => { en with condstore := true }
  | .qresync => { en with qresync := true, condstore := true }
  | .imap4rev2 => { en with imap4rev2 := true }

/-- One argument of ENABLE: a known name that is not on yet is turned on and listed. -/
def enableArg (st : Enabled × List Text) (arg : ImapValue) : Enabled × List Text :=
  match valueText arg with
  | none => st
  | some text =>
    match enablable.find? fun n => toUpperCase s.host.cases n.text = toUpperCase s.host.cases text with
    | none => st
    | some n => if st.1.has n then st else (st.1.add n, st.2 ++ [n.text])

def cmdEnable (cmd : ParsedCommand) : Handler := fun e =>
  match e.state with
  | .notAuthenticated => (e, [say (bad cmd.tag "ENABLE not allowed before authentication")])
  | .selected => (e, [say (bad cmd.tag "ENABLE not allowed with a mailbox selected")])
  | .authenticated =>
    let r := cmd.args.foldl (enableArg s) (e.enabled, [])
    ({ e with enabled := r.1 },
      [say (join " " ("* ENABLED".toList :: r.2)), say (completed cmd.tag "ENABLE")])

def scramMechanism : Text := "SCRAM-SHA-256"

def authenticationFailed (tag : Text) : Text :=
  no tag "[AUTHENTICATIONFAILED] authentication failed"

def scramFailedAction : ScramStep → ImapAction
  | .failed user => .authFailed user scramMechanism
  | _ => .authFailed none scramMechanism

def scramRejected (tag : Text) (step : ScramStep) : List ImapAction :=
  [scramFailedAction step, say (authenticationFailed tag)]

/-- The end of an exchange: the backend is asked, and lines wait for its answer. -/
def requestAuth (tag : Text) (action : ImapAction) (e : Engine) : Engine × List ImapAction :=
  ({ e with pending := some (.auth tag) }, [action])

def handleScram (nonce tag : Text) (session : ScramServerSession) (stage : ScramStage)
    (username : Option Text) (text : Text) : Handler := fun e =>
  match stage with
  | .serverFinal => requestAuth tag (.authVerified tag (username.getD [])) e
  | .clientFirst =>
    match session.start nonce text with
    | (session, .lookup user) =>
      ({ e with pending := some (.scramKeys ⟨tag, .scram session .clientFinal username⟩) },
        [.scramKeys user])
    | (_, step) => (e, scramRejected tag step)
  | .clientFinal =>
    match session.final s.host text with
    | (session, .done user message) =>
      ({ e with pending := some (.saslLine ⟨tag, .scram session .serverFinal (some user)⟩) },
        [say ("+ " ++ base64Encode (utf8Encode message))])
    | (_, step) => (e, scramRejected tag step)

/-- After the server's last message the client's line is empty. -/
def isScramAck (sasl : SaslPending) (data : Option Text) : Bool :=
  match sasl.mechanism with
  | .scram _ .serverFinal _ => data = none || data = some []
  | _ => false

def saslUser : SaslMechanism → Text
  | .scram _ _ username => username.getD []
  | _ => []

def handleSaslData (nonce : Text) (sasl : SaslPending) (data : Option Text) : Handler := fun e =>
  if isScramAck sasl data then
    requestAuth sasl.tag (.authVerified sasl.tag (saslUser sasl.mechanism)) e
  else
    match data with
    | none => (e, [say (bad sasl.tag "malformed SASL response")])
    | some data =>
      if data = ['*'] then (e, [say (bad sasl.tag "authentication cancelled")])
      else
        match decodeSaslBase64 (if data = ['='] then [] else data) with
        | none => (e, [say (bad sasl.tag "invalid base64")])
        | some bytes =>
          match sasl.mechanism with
          | .scram session stage username =>
            handleScram s nonce sasl.tag session stage username (utf8Decode bytes) e
          | .oauth mechanism =>
            match parseSaslOAuth mechanism (utf8Decode bytes) with
            | none =>
              (e, [say (no sasl.tag ("[AUTHENTICATIONFAILED] malformed " ++ mechanism.text ++
                " response"))])
            | some creds => requestAuth sasl.tag (.auth creds.user creds.pass) e
          | .plain =>
            match parseSaslPlain bytes with
            | none =>
              (e, [say (no sasl.tag "[AUTHENTICATIONFAILED] malformed PLAIN response")])
            | some creds => requestAuth sasl.tag (.auth creds.user creds.pass) e

def cmdLogin (cmd : ParsedCommand) : Handler := fun e =>
  if e.state ≠ .notAuthenticated then
    (e, [say (bad cmd.tag "LOGIN not allowed in current state")])
  else if !authAllowed s e then
    (e, [say (no cmd.tag "[PRIVACYREQUIRED] LOGIN disabled on insecure connection")])
  else
    match textArg cmd 0, textArg cmd 1, cmd.args with
    | some user, some pass, [_, _] => requestAuth cmd.tag (.auth user pass) e
    | _, _, _ => (e, [say (bad cmd.tag "LOGIN expects username and password")])

def saslMechanism (mech : Option Text) : Option SaslMechanism :=
  if mech = some scramMechanism ∧ s.options.scramOffered then
    some (.scram (ScramServerSession.new s.options.scramDecoySecret) .clientFirst none)
  else if mech = some "PLAIN".toList then some .plain
  else if mech = some OAuthMechanism.xoauth2.text then some (.oauth .xoauth2)
  else if mech = some OAuthMechanism.oauthbearer.text then some (.oauth .oauthbearer)
  else none

def cmdAuthenticate (nonce : Text) (cmd : ParsedCommand) : Handler := fun e =>
  if e.state ≠ .notAuthenticated then
    (e, [say (bad cmd.tag "AUTHENTICATE not allowed in current state")])
  else if !authAllowed s e then
    (e, [say (no cmd.tag "[PRIVACYREQUIRED] AUTHENTICATE disabled on insecure connection")])
  else
    match saslMechanism s (upperText s.host.cases cmd.args[0]?) with
    | none => (e, [say (no cmd.tag "[CANNOT] unsupported authentication mechanism")])
    | some mechanism =>
      if 2 < cmd.args.length then (e, [say (bad cmd.tag "too many arguments")])
      else
        match textArg cmd 1 with
        | some initial => handleSaslData s nonce ⟨cmd.tag, mechanism⟩ (some initial) e
        | none =>
          ({ e with pending := some (.saslLine ⟨cmd.tag, mechanism⟩) }, [say "+ "])

/-- Commands that change more of the session than an `Answer` can say. -/
inductive SessionVerb where
  | logout | starttls | login | authenticate | enable | compress | idle
  deriving DecidableEq

inductive AnswerVerb where
  | capability | noop | check | id | getquotaroot | getquota | setquota | namespace | list | lsub
  | subscribe | unsubscribe | create | delete | rename | getacl | setacl | deleteacl | listrights
  | myrights | status | select | examine | unselect | close | fetch | store | search | sort
  | thread | expunge | append | replace | copy | move | uid
  deriving DecidableEq

inductive Verb where
  | session (v : SessionVerb)
  | answer (v : AnswerVerb)
  deriving DecidableEq

def sessionTable : List (String × SessionVerb) :=
  [("LOGOUT", .logout), ("STARTTLS", .starttls), ("LOGIN", .login),
    ("AUTHENTICATE", .authenticate), ("ENABLE", .enable), ("COMPRESS", .compress),
    ("IDLE", .idle)]

def answerTable : List (String × AnswerVerb) :=
  [("CAPABILITY", .capability), ("NOOP", .noop), ("CHECK", .check), ("ID", .id),
    ("GETQUOTAROOT", .getquotaroot), ("GETQUOTA", .getquota), ("SETQUOTA", .setquota),
    ("NAMESPACE", .namespace), ("LIST", .list), ("LSUB", .lsub), ("SUBSCRIBE", .subscribe),
    ("UNSUBSCRIBE", .unsubscribe), ("CREATE", .create), ("DELETE", .delete),
    ("RENAME", .rename), ("GETACL", .getacl), ("SETACL", .setacl), ("DELETEACL", .deleteacl),
    ("LISTRIGHTS", .listrights), ("MYRIGHTS", .myrights), ("STATUS", .status),
    ("SELECT", .select), ("EXAMINE", .examine), ("UNSELECT", .unselect), ("CLOSE", .close),
    ("FETCH", .fetch), ("STORE", .store), ("SEARCH", .search), ("SORT", .sort),
    ("THREAD", .thread), ("EXPUNGE", .expunge), ("APPEND", .append), ("REPLACE", .replace),
    ("COPY", .copy), ("MOVE", .move), ("UID", .uid)]

def answerVerbOf (name : Text) : Option AnswerVerb :=
  (answerTable.find? fun row => row.1.toList = name).map (·.2)

def verbOf (name : Text) : Option Verb :=
  match sessionTable.find? fun row => row.1.toList = name with
  | some row => some (.session row.2)
  | none => (answerVerbOf name).map .answer

def requireAuth (cmd : ParsedCommand) (e : Engine) (fn : Answer) : Answer :=
  if e.state = .notAuthenticated then refuse cmd.tag "command not allowed before authentication"
  else fn

def requireSelected (cmd : ParsedCommand) (e : Engine) (fn : SelectedView → Answer) : Answer :=
  match e.state, e.selected with
  | .selected, some view => fn view
  | _, _ => refuse cmd.tag "command requires a selected mailbox"

/-- `UID` and its sub-command. The set of `UID EXPUNGE` is read before anything else. -/
def cmdUid (cmd : ParsedCommand) (e : Engine) : Answer :=
  let rest : ParsedCommand :=
    ⟨cmd.tag, (upperText s.host.cases cmd.args[0]?).getD [], cmd.args.drop 1⟩
  match answerVerbOf rest.name with
  | some .fetch => requireSelected cmd e fun view => cmdFetch s rest true view e
  | some .store => requireSelected cmd e fun view => cmdStore s rest true view e
  | some .search => requireSelected cmd e fun view => cmdSearch s rest true view e
  | some .sort => requireSelected cmd e fun view => cmdSortThread s rest true .sort view
  | some .thread => requireSelected cmd e fun view => cmdSortThread s rest true .thread view
  | some .copy => requireSelected cmd e fun view => cmdCopyMove s rest true .copy view e
  | some .move => requireSelected cmd e fun view => cmdCopyMove s rest true .move view e
  | some .replace => requireSelected cmd e fun view => cmdReplace s rest true view e
  | some .expunge =>
    match setArg rest.args[0]? true e with
    | none => refuse cmd.tag "UID EXPUNGE expects sequence set"
    | some ranges => requireSelected cmd e fun view => cmdExpunge rest (some ranges) view e
  | _ => refuse cmd.tag "unknown UID command"

def noopText (cmd : ParsedCommand) : Text := completed cmd.tag cmd.name

def ordinary (verb : AnswerVerb) (cmd : ParsedCommand) (e : Engine) : Answer :=
  match verb with
  | .capability => lines ["* " ++ capabilityText s e, completed cmd.tag "CAPABILITY"]
  | .noop | .check =>
    if e.state = .selected ∧ e.selected.isSome then refreshSelected (some (noopText cmd)) e
    else lines [noopText cmd]
  | .id => lines ["* ID (\"name\" \"ionosphere\")", completed cmd.tag "ID"]
  | .getquotaroot => requireAuth cmd e (cmdGetQuota s cmd .getquotaroot)
  | .getquota => requireAuth cmd e (cmdGetQuota s cmd .getquota)
  | .setquota =>
    requireAuth cmd e (lines [no cmd.tag "[CANNOT] quota is managed by the administrator"])
  | .namespace =>
    requireAuth cmd e
      (lines ["* NAMESPACE ((\"\" \"/\")) NIL NIL", completed cmd.tag "NAMESPACE"])
  | .list => requireAuth cmd e (cmdList s cmd .list)
  | .lsub => requireAuth cmd e (cmdList s cmd .lsub)
  | .subscribe => requireAuth cmd e (cmdSubscribe s cmd "SUBSCRIBE" true)
  | .unsubscribe => requireAuth cmd e (cmdSubscribe s cmd "UNSUBSCRIBE" false)
  | .create => requireAuth cmd e (cmdCreate s cmd)
  | .delete => requireAuth cmd e (cmdDelete s cmd)
  | .rename => requireAuth cmd e (cmdRename s cmd)
  | .getacl => requireAuth cmd e (cmdGetAcl s cmd)
  | .setacl => requireAuth cmd e (cmdSetAcl s cmd)
  | .deleteacl => requireAuth cmd e (cmdDeleteAcl s cmd)
  | .listrights => requireAuth cmd e (cmdListRights s cmd)
  | .myrights => requireAuth cmd e (cmdMyRights s cmd)
  | .status => requireAuth cmd e (cmdStatus s cmd)
  | .select => requireAuth cmd e (cmdSelect s cmd true e)
  | .examine => requireAuth cmd e (cmdSelect s cmd false e)
  | .unselect =>
    requireSelected cmd e fun _ => { lines [completed cmd.tag "UNSELECT"] with leave := true }
  | .close => requireSelected cmd e fun view => cmdClose cmd view
  | .fetch => requireSelected cmd e fun view => cmdFetch s cmd false view e
  | .store => requireSelected cmd e fun view => cmdStore s cmd false view e
  | .search => requireSelected cmd e fun view => cmdSearch s cmd false view e
  | .sort => requireSelected cmd e fun view => cmdSortThread s cmd false .sort view
  | .thread => requireSelected cmd e fun view => cmdSortThread s cmd false .thread view
  | .expunge => requireSelected cmd e fun view => cmdExpunge cmd none view e
  | .append => requireAuth cmd e (cmdAppend s cmd)
  | .replace => requireSelected cmd e fun view => cmdReplace s cmd false view e
  | .copy => requireSelected cmd e fun view => cmdCopyMove s cmd false .copy view e
  | .move => requireSelected cmd e fun view => cmdCopyMove s cmd false .move view e
  | .uid => cmdUid s cmd e

def cmdIdle (cmd : ParsedCommand) : Handler := fun e =>
  if e.state = .notAuthenticated then
    (e, [say (bad cmd.tag "command not allowed before authentication")])
  else ({ e with idleTag := some cmd.tag }, [say "+ idling"])

def sessionCommand (nonce : Text) (cmd : ParsedCommand) : SessionVerb → Handler
  | .logout => cmdLogout s cmd
  | .starttls => cmdStartTls s cmd
  | .login => cmdLogin s cmd
  | .authenticate => cmdAuthenticate s nonce cmd
  | .enable => cmdEnable s cmd
  | .compress => cmdCompress s cmd
  | .idle => cmdIdle cmd

def dispatch (nonce : Text) (verb : Verb) (cmd : ParsedCommand) : Handler := fun e =>
  match verb with
  | .session v => sessionCommand s nonce cmd v e
  | .answer v => (ordinary s v cmd e).apply e

def handleCommand (nonce : Text) (parts : List LinePart) : Handler := fun e =>
  match parseCommand s.host.cases parts with
  | .error msg => (e, [say ("* BAD " ++ msg)])
  | .ok cmd =>
    match verbOf cmd.name with
    | none => (e, [say (bad cmd.tag "unknown command")])
    | some verb => dispatch s nonce verb cmd e

def soleText : List LinePart → Option Text
  | [.text t] => some t
  | _ => none

def endIdle (tag : Text) (parts : List LinePart) : ImapAction :=
  let text := toUpperCase s.host.cases (trim ((soleText parts).getD []))
  if text = "DONE".toList then say (tag ++ " OK IDLE terminated")
  else say (bad tag "expected DONE")

def handleLine (nonce : Text) (parts : List LinePart) : Handler := fun e =>
  match e.idleTag with
  | some tag => ({ e with idleTag := none }, [endIdle s tag parts])
  | none =>
    match e.pending with
    | some (.saslLine sasl) =>
      handleSaslData s nonce sasl (soleText parts) { e with pending := none }
    | _ => handleCommand s nonce parts e

def resume (k : Resume) (res : ImapBackendResponse) : Handler := fun e =>
  match k with
  | .okOrNo tag verb => (okOrNoAnswer tag verb res).apply e
  | .getAcl tag => (getAclAnswer tag res).apply e
  | .listRights tag => (listRightsAnswer tag res).apply e
  | .myRights tag => (myRightsAnswer tag res).apply e
  | .list plan => (listAnswer s plan res).apply e
  | .status tag name wanted => (statusAnswer tag name wanted res).apply e
  | .quota tag verb mailbox => (quotaAnswer tag verb mailbox res).apply e
  | .select tag readWrite qresync => resumeSelect tag readWrite qresync res e
  | .selectSync tag readWrite => (selectSyncAnswer s tag readWrite e res).apply e
  | .fetch plan offset => (fetchAnswer s plan offset e res).apply e
  | .fetchVanished plan requested maxUid =>
    (fetchVanishedAnswer plan requested maxUid res).apply e
  | .append tag name => resumeAppend tag name res e
  | .replace tag verb dest => resumeReplace tag verb dest res e
  | .copyMove tag verb op => resumeCopyMove tag verb op res e
  | .store tag verb uidMode silent targets =>
    (storeAnswer s tag verb uidMode silent targets e res).apply e
  | .expunge tag verb => resumeExpunge tag verb res e
  | .search plan offset batchUids hits hitUids =>
    (searchAnswer s plan offset batchUids hits hitUids e res).apply e
  | .sortThread plan mode offset batchUids hits sortMeta =>
    (sortThreadAnswer s plan mode offset batchUids hits sortMeta e res).apply e
  | .refresh taggedOk => resumeRefresh taggedOk res e
  | .refreshSync taggedOk newWatermark dbKeywords =>
    resumeRefreshSync s taggedOk newWatermark dbKeywords res e

/-- Where a call of `resume` has more arguments than the host allows. -/
def resumeThrows (k : Resume) (res : ImapBackendResponse) (e : Engine) : Bool :=
  match k, res, e.selected with
  | .search plan offset batchUids hits _, .messages messages, _ =>
    searchThrows s plan offset batchUids hits e messages
  | .refresh _, .selected _ uids _ _, some view =>
    refreshThrows s.host.argumentLimit e.enabled.qresync uids view
  | _, _, _ => false

def lineBytes (parts : List LinePart) : Nat :=
  (parts.map fun p => match p with
    | .text t => t.length
    | .literal bytes => bytes.length).sum

/-- Lines wait while an authentication or a backend request is pending. -/
def queues (e : Engine) : Bool :=
  match e.pending with
  | some (.auth _) => true
  | some (.backend _) => true
  | _ => false

def enqueue (parts : List LinePart) : Handler := fun e =>
  if maxQueuedLineBytes < e.queuedBytes + lineBytes parts then
    ({ e with queued := [], queuedBytes := 0, closed := true },
      [say "* BYE too much pipelined data", .close])
  else
    ({ e with queued := e.queued ++ [parts], queuedBytes := e.queuedBytes + lineBytes parts }, [])

def handleReaderEvent (nonce : Text) (ev : ReaderEvent) : Handler := fun e =>
  match ev with
  | .continue _ => (e, [say "+ OK"])
  | .error message => (e, [say ("* BAD " ++ message)])
  | .line parts => if queues e then enqueue parts e else handleLine s nonce parts e

def handleEvents : (Nat → Text) → List ReaderEvent → Handler
  | _, [], e => (e, [])
  | nonce, ev :: evs, e =>
    let r := handleReaderEvent s (nonce 0) ev e
    if r.1.closed then r
    else
      let q := handleEvents (fun i => nonce (i + 1)) evs r.1
      (q.1, r.2 ++ q.2)

def feed (nonce : Nat → Text) (chunk : Bytes) : Handler := fun e =>
  if e.closed || e.awaitingTls then (e, [])
  else
    let r := e.reader.feed chunk
    handleEvents s nonce r.2 { e with reader := r.1 }

def canDrain (e : Engine) : Bool := e.pending.isNone && !e.closed

def settleQueue (e : Engine) : Engine := if e.queued = [] then { e with queuedBytes := 0 } else e

/-- The queued lines, in order, until one of them has to wait. A line can only take
lines out of the queue, so the length bounds the number of rounds. -/
def drainLoop : Nat → (Nat → Text) → Handler
  | 0, _, e => (e, [])
  | fuel + 1, nonce, e =>
    match e.queued with
    | [] => (e, [])
    | parts :: queued =>
      if !canDrain e then (e, [])
      else
        let r := handleLine s (nonce 0) parts
          { e with queued := queued, queuedBytes := e.queuedBytes - lineBytes parts }
        let q := drainLoop fuel (fun i => nonce (i + 1)) r.1
        (q.1, r.2 ++ q.2)

def drainQueued (nonce : Nat → Text) : Handler := fun e =>
  let r := drainLoop s e.queued.length nonce e
  (settleQueue r.1, r.2)

def backendResult (nonce : Nat → Text) (res : ImapBackendResponse) (e : Engine) :
    Option (Engine × List ImapAction) :=
  match e.pending with
  | some (.backend k) =>
    if resumeThrows s k res e then none
    else
      let r := resume s k res { e with pending := none }
      let q := drainQueued s nonce r.1
      some (q.1, r.2 ++ q.2)
  | _ => none

def scramKeysResult (keys : Option ScramStoredKeys) (e : Engine) :
    Option (Engine × List ImapAction) :=
  match e.pending with
  | some (.scramKeys ⟨tag, .scram session stage username⟩) =>
    match session.provideKeys s.host keys with
    | (session, .send message) =>
      some ({ e with pending := some (.saslLine ⟨tag, .scram session stage username⟩) },
        [say ("+ " ++ base64Encode (utf8Encode message))])
    | (_, step) => some ({ e with pending := none }, scramRejected tag step)
  | _ => none

/-- The verdict of the backend; after a success literals may be as large as a message. -/
def authAnswered (tag : Text) (ok : Bool) : Handler := fun e =>
  if ok then
    let e := { e with
      state := .authenticated
      reader := e.reader.setMaxLiteralBytes s.options.maxLiteralBytes }
    (e, [say (tag ++ " OK [" ++ capabilityText s e ++ "] authenticated")])
  else (e, [say (authenticationFailed tag)])

def authResult (nonce : Nat → Text) (ok : Bool) (e : Engine) :
    Option (Engine × List ImapAction) :=
  match e.pending with
  | some (.auth tag) =>
    let r := authAnswered s tag ok { e with pending := none }
    let q := drainQueued s nonce r.1
    if s.host.argumentLimit < q.2.length then none else some (q.1, r.2 ++ q.2)
  | _ => none

def tlsEstablished (e : Engine) : Engine := { e with secure := true, awaitingTls := false }

def idleTick : Handler := fun e =>
  if e.idleTag.isNone || e.pending.isSome || e.state ≠ .selected || e.closed then (e, [])
  else (refreshSelected none e).apply e

def newEngine (secure : Bool) : Engine :=
  { secure := secure
    reader :=
      { maxLineBytes := s.options.maxLineBytes
        maxLiteralBytes := min s.options.maxLiteralBytes maxPreauthLiteralBytes } }

inductive Call where
  | greeting
  | feed (chunk : Bytes)
  | backendResult (res : ImapBackendResponse)
  | scramKeysResult (keys : Option ScramStoredKeys)
  | authResult (ok : Bool)
  | tlsEstablished
  | idleTick

/-- One call of a public method, with the nonces drawn during it. -/
structure Input where
  call : Call
  nonce : Nat → Text := fun _ => []

def step (i : Input) (e : Engine) : Option (Engine × List ImapAction) :=
  match i.call with
  | .greeting => some (e, greeting s e)
  | .feed chunk => some (feed s i.nonce chunk e)
  | .backendResult res => backendResult s i.nonce res e
  | .scramKeysResult keys => scramKeysResult s keys e
  | .authResult ok => authResult s i.nonce ok e
  | .tlsEstablished => some (tlsEstablished e, [])
  | .idleTick => some (idleTick e)

/-- A run: the engine after the calls and the actions of each. `none` when a call is
refused. -/
def run (e : Engine) : List Input → Option (Engine × List (List ImapAction))
  | [] => some (e, [])
  | i :: is =>
    match step s i e with
    | none => none
    | some (e', acts) => (run e' is).map fun p => (p.1, acts :: p.2)

end

/-- Functions for a session that asks for no message data. -/
def noFormats : Formats :=
  { parseFetchItems := fun _ => none
    parseImapDateTime := fun _ => none
    formatInternalDate := fun _ => []
    formatEnvelope := fun _ => []
    formatBodyStructure := fun _ _ => []
    extractSection := fun _ _ => none
    extractBinary := fun _ _ => none
    parseSearchProgram := fun _ => .error false
    searchNeedsRaw := fun _ => false
    evaluateSearch := fun _ _ _ _ => false
    parseSortSpec := fun _ => none
    formatSortLine := fun _ _ _ => []
    formatThreadLine := fun _ _ => []
    matchesListPattern := fun _ _ => false }

/-- A host for text in ASCII and a session without SCRAM, with a certificate. -/
def bareSetup : Setup :=
  { host := { cases := ⟨id, id⟩, sha256 := id, hmac := fun _ b => b, serverNonce := fun _ => [] }
    formats := noFormats
    options := { hostname := "mx", allowInsecureAuth := true, tlsAvailable := true } }

end Ionosphere.Imap
