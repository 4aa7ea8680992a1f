import Ionosphere.Core.Scram
import Ionosphere.Imap.Reader

/-! The ManageSieve engine: bytes in, actions out, no sockets. It reads logical lines with
the IMAP line reader. While an answer of the backend is awaited lines are queued; while the
client's SASL data is awaited the next line of the reader is that data. Every line that is
handled is given the nonce the host would draw for it; only a SCRAM exchange reads it. A
public method the source refuses by an exception returns `none`. -/
namespace Ionosphere.ManageSieve

open Ionosphere.Js Ionosphere.Core
open Ionosphere.Imap (LinePart Reader ReaderEvent)

local instance : Coe String Text := ⟨String.toList⟩

inductive ManageSieveAction where
  | reply (text : Text)
  | replyBytes (bytes : Bytes)
  | close
  | startTls
  | auth (user pass : Text)
  | scramKeys (user : Text)
  | authVerified (user : Text)
  | authFailed (user : Option Text) (mechanism : Text)
  | putScript (name content : Text)
  | checkScript (content : Text)
  | listScripts
  | getScript (name : Text)
  | deleteScript (name : Text)
  | renameScript (src dest : Text)
  | setActive (name : Text)
  deriving DecidableEq

inductive OpResult where
  | ok
  | no (code : Option Text) (message : Text)
  deriving DecidableEq

structure Script where
  name : Text
  active : Bool
  deriving DecidableEq

structure Options where
  hostname : Text
  secure : Bool := false
  allowInsecureAuth : Bool := false
  tlsAvailable : Bool := false
  scramOffered : Bool := false
  scramDecoySecret : Bytes := []
  maxScriptBytes : Nat := 1024 * 1024

/-- What an engine is built over. -/
structure Setup where
  host : Host
  options : Options

inductive Sasl where
  | plain
  | scram
  deriving DecidableEq

inductive Pending where
  | auth (sasl : Sasl)
  | scramKeys
  | authLine (sasl : Sasl)
  | putScript (name : Text)
  | checkScript
  | list
  | get (name : Text)
  | op
  deriving DecidableEq

inductive ScramStage where
  | clientFirst
  | clientFinal
  | serverFinal
  deriving DecidableEq

structure ScramExchange where
  session : ScramServerSession
  stage : ScramStage
  username : Option Text := none
  deriving DecidableEq

/-- The mutable fields of `ManageSieveEngine`. -/
structure Engine where
  secure : Bool
  scram : Option ScramExchange := none
  reader : Reader
  authed : Bool := false
  closed : Bool := false
  awaitingTls : Bool := false
  pending : Option Pending := none
  queued : List (List LinePart) := []

abbrev Handler := Engine → Engine × List ManageSieveAction

/-- Where `parseParts` stands in a text, with the value it is collecting. -/
inductive Scan where
  | between
  | atom (val : Text)
  | quoted (val : Text)
  | escaped (val : Text)

def tokens : Scan → Text → List Text
  | .between, [] => []
  | .atom val, [] => [val]
  | .quoted val, [] => [val]
  | .escaped val, [] => [val]
  | .between, c :: cs =>
    if c = ' ' ∨ c = '\t' then tokens .between cs
    else if c = '"' then tokens (.quoted []) cs
    else tokens (.atom [c]) cs
  | .atom val, c :: cs =>
    if c = ' ' ∨ c = '\t' then val :: tokens .between cs else tokens (.atom (val ++ [c])) cs
  | .quoted val, c :: cs =>
    if c = '"' then val :: tokens .between cs
    else if c = '\\' then tokens (.escaped val) cs
    else tokens (.quoted (val ++ [c])) cs
  | .escaped val, c :: cs => tokens (.quoted (val ++ [c])) cs

def parseParts (parts : List LinePart) : List Text :=
  parts.flatMap fun part =>
    match part with
    | .literal bytes => [utf8Decode bytes]
    | .text text => tokens .between text

def quote (text : Text) : Text :=
  "\"" ++ (text.flatMap fun c => if c = '\\' ∨ c = '"' then ['\\', c] else [c]) ++ "\""

def supportedExtensionList : List Text :=
  ["fileinto".toList, "envelope".toList, "imap4flags".toList, "copy".toList, "reject".toList,
    "ereject".toList, "vacation".toList, "mailbox".toList, "subaddress".toList, "body".toList,
    "relational".toList, "date".toList, "spamtest".toList, "comparator-i;ascii-numeric".toList,
    "include".toList, "variables".toList, "regex".toList]

section

variable (s : Setup)

def newReader : Reader := { maxLiteralBytes := s.options.maxScriptBytes }

def newEngine (secure : Bool) : Engine := { secure := secure, reader := newReader s }

def authAllowed (e : Engine) : Bool := e.secure || s.options.allowInsecureAuth

def starttlsOffered (e : Engine) : Bool := s.options.tlsAvailable && !e.secure

def capLines (authAllowed starttlsOffered scramOffered : Bool) : List Text :=
  ["\"IMPLEMENTATION\" \"ionosphere ManageSieve\"".toList,
    "\"SIEVE\" \"" ++ join " " supportedExtensionList ++ "\"",
    "\"VERSION\" \"1.0\"".toList] ++
  (if starttlsOffered then ["\"STARTTLS\"".toList] else []) ++
  [if authAllowed then
      if scramOffered then "\"SASL\" \"SCRAM-SHA-256 PLAIN\"".toList
      else "\"SASL\" \"PLAIN\"".toList
    else "\"SASL\" \"\"".toList]

def capabilities (e : Engine) : List ManageSieveAction :=
  (capLines (authAllowed s e) (starttlsOffered s e) s.options.scramOffered).map .reply

def greeting (e : Engine) : List ManageSieveAction :=
  capabilities s e ++ [ManageSieveAction.reply ("OK \"" ++ s.options.hostname ++ " ManageSieve ready\"")]

def scramMechanism : Text := "SCRAM-SHA-256"

def authenticationFailed : ManageSieveAction := .reply "NO \"authentication failed\""

def scramFailedAction : ScramStep → ManageSieveAction
  | .failed user => .authFailed user scramMechanism
  | _ => .authFailed none scramMechanism

def scramRejected (step : ScramStep) : List ManageSieveAction :=
  [scramFailedAction step, authenticationFailed]

def challenge (message : Text) : ManageSieveAction :=
  let b64 := base64Encode (utf8Encode message)
  .reply ("\x7b" ++ natText b64.length ++ "+\x7d\r\n" ++ b64)

def decodePlain (b64 : Text) : Handler := fun e =>
  match decodeSaslBase64 b64 with
  | none => (e, [.reply "NO \"invalid base64\""])
  | some bytes =>
    match parseSaslPlain bytes with
    | none => (e, [.reply "NO \"malformed PLAIN\""])
    | some creds => ({ e with pending := some (.auth .plain) }, [.auth creds.user creds.pass])

def handleScramLine (nonce b64 : Text) : Handler := fun e =>
  match e.scram with
  | none => (e, [authenticationFailed])
  | some sc =>
    if sc.stage = .serverFinal then
      ({ e with scram := none, pending := some (.auth .scram) },
        [.authVerified (sc.username.getD [])])
    else
      match decodeSaslBase64 b64 with
      | none => ({ e with scram := none }, [.reply "NO \"invalid base64\""])
      | some bytes =>
        if sc.stage = .clientFirst then
          match sc.session.start nonce (utf8Decode bytes) with
          | (session, .lookup user) =>
            ({ e with
                scram := some { sc with session := session, stage := .clientFinal }
                pending := some .scramKeys }, [.scramKeys user])
          | (_, step) => ({ e with scram := none }, scramRejected step)
        else
          match sc.session.final s.host (utf8Decode bytes) with
          | (session, .done user message) =>
            ({ e with
                scram := some ⟨session, .serverFinal, some user⟩
                pending := some (.authLine .scram) }, [challenge message])
          | (_, step) => ({ e with scram := none }, scramRejected step)

/-- The mechanism an AUTHENTICATE names, when the engine goes along with it. -/
def saslOf (mech : Text) : Option Sasl :=
  if mech = scramMechanism then if s.options.scramOffered then some .scram else none
  else if mech = "PLAIN".toList then some .plain
  else none

def cmdAuthenticate (nonce : Text) (values : List Text) : Handler := fun e =>
  if e.authed then (e, [.reply "NO \"already authenticated\""])
  else if !authAllowed s e then (e, [.reply "NO \"TLS required before AUTHENTICATE\""])
  else
    match saslOf s (toUpperCase s.host.cases (values[1]?.getD [])) with
    | none => (e, [.reply "NO \"unsupported SASL mechanism\""])
    | some .scram =>
      let e := { e with
        scram := some ⟨ScramServerSession.new s.options.scramDecoySecret, .clientFirst, none⟩ }
      match values[2]? with
      | some initial => handleScramLine s nonce initial e
      | none => ({ e with pending := some (.authLine .scram) }, [.reply "\"\""])
    | some .plain =>
      match values[2]? with
      | some initial => decodePlain initial e
      | none => ({ e with pending := some (.authLine .plain) }, [.reply "\"\""])

def cmdStartTls : Handler := fun e =>
  if e.secure then (e, [.reply "NO \"TLS already active\""])
  else if !s.options.tlsAvailable then (e, [.reply "NO \"STARTTLS not available\""])
  else if e.pending.isSome then (e, [.reply "NO \"STARTTLS not allowed mid-command\""])
  else
    ({ e with awaitingTls := true, queued := [] },
      [.reply "OK \"Begin TLS negotiation now\"", .startTls])

def ask (pending : Pending) (action : ManageSieveAction) : Handler := fun e =>
  ({ e with pending := some pending }, [action])

def refuse (text : Text) : Handler := fun e => (e, [.reply ("NO \"" ++ text ++ "\"")])

def cmdPutScript (values : List Text) : Handler :=
  match values[1]?, values[2]? with
  | some name, some content => ask (.putScript name) (.putScript name content)
  | _, _ => refuse "PUTSCRIPT needs name and script"

def cmdCheckScript (values : List Text) : Handler :=
  match values[1]? with
  | some content => ask .checkScript (.checkScript content)
  | none => refuse "CHECKSCRIPT needs script"

def cmdSetActive (values : List Text) : Handler := ask .op (.setActive (values[1]?.getD []))

def cmdGetScript (values : List Text) : Handler :=
  match values[1]? with
  | some name => ask (.get name) (.getScript name)
  | none => refuse "GETSCRIPT needs name"

def cmdDeleteScript (values : List Text) : Handler :=
  match values[1]? with
  | some name => ask .op (.deleteScript name)
  | none => refuse "DELETESCRIPT needs name"

def cmdRenameScript (values : List Text) : Handler :=
  match values[1]?, values[2]? with
  | some src, some dest => ask .op (.renameScript src dest)
  | _, _ => refuse "RENAMESCRIPT needs old and new name"

/-- A finite number of at most `max`. -/
def withinLimit (max : Nat) : Js.Num → Bool
  | .finite neg num scale => neg || decide (num ≤ max * 2 ^ scale)
  | _ => false

def cmdHaveSpace (values : List Text) : Handler := fun e =>
  if withinLimit s.options.maxScriptBytes (number (values[2]?.getD ['0'])) then (e, [.reply "OK"])
  else (e, [.reply "NO (QUOTA/MAXSIZE) \"script too large\""])

def cmdLogout : Handler := fun e => ({ e with closed := true }, [.reply "OK \"bye\"", .close])

/-- The commands of an authenticated session. -/
inductive ScriptVerb where
  | putScript | checkScript | listScripts | setActive | getScript | deleteScript | renameScript
  | haveSpace
  deriving DecidableEq

inductive Verb where
  | logout | noop | capability | authenticate | startTls
  | script (verb : ScriptVerb)
  deriving DecidableEq

def verbTable : List (String × Verb) :=
  [("LOGOUT", .logout), ("NOOP", .noop), ("CAPABILITY", .capability),
    ("AUTHENTICATE", .authenticate), ("STARTTLS", .startTls), ("PUTSCRIPT", .script .putScript),
    ("CHECKSCRIPT", .script .checkScript), ("LISTSCRIPTS", .script .listScripts),
    ("SETACTIVE", .script .setActive), ("GETSCRIPT", .script .getScript),
    ("DELETESCRIPT", .script .deleteScript), ("RENAMESCRIPT", .script .renameScript),
    ("HAVESPACE", .script .haveSpace)]

def verbOf (name : Text) : Option Verb :=
  (verbTable.find? fun row => row.1.toList = name).map (·.2)

def scriptCommand (values : List Text) : ScriptVerb → Handler
  | .putScript => cmdPutScript values
  | .checkScript => cmdCheckScript values
  | .listScripts => ask .list .listScripts
  | .setActive => cmdSetActive values
  | .getScript => cmdGetScript values
  | .deleteScript => cmdDeleteScript values
  | .renameScript => cmdRenameScript values
  | .haveSpace => cmdHaveSpace s values

def handleLine (nonce : Text) (parts : List LinePart) : Handler := fun e =>
  let values := parseParts parts
  match values with
  | [] => (e, [.reply "NO \"empty command\""])
  | name :: _ =>
    match verbOf (toUpperCase s.host.cases name) with
    | some .logout => cmdLogout e
    | some .noop => (e, [.reply "OK \"NOOP completed\""])
    | some .capability => (e, capabilities s e ++ [ManageSieveAction.reply "OK"])
    | some .authenticate => cmdAuthenticate s nonce values e
    | some .startTls => cmdStartTls s e
    | some (.script verb) =>
      if !e.authed then refuse "Authenticate first" e else scriptCommand s values verb e
    | none => if !e.authed then refuse "Authenticate first" e else refuse "unknown command" e

/-- The condition of the loop in `drain`, for a queue that is not empty. -/
def canDrain (e : Engine) : Bool := e.pending.isNone && !e.closed && !e.awaitingTls

/-- Each round takes a line off the queue, so its length bounds the number of rounds. -/
def drainLoop : Nat → (Nat → Text) → Handler
  | 0, _, e => (e, [])
  | fuel + 1, nonce, e =>
    match e.queued with
    | [] => (e, [])
    | parts :: queued =>
      if !canDrain e then (e, [])
      else
        let r := handleLine s (nonce 0) parts { e with queued := queued }
        let q := drainLoop fuel (fun i => nonce (i + 1)) r.1
        (q.1, r.2 ++ q.2)

def drain (nonce : Nat → Text) : Handler := fun e => drainLoop s e.queued.length nonce e

def resumed (nonce : Nat → Text) (r : Engine × List ManageSieveAction) :
    Engine × List ManageSieveAction :=
  let q := drain s nonce r.1
  (q.1, r.2 ++ q.2)

def saslData (parts : List LinePart) : Text := (parseParts parts).head?.getD []

def abort : Handler := fun e =>
  ({ e with pending := none, scram := none }, [.reply "NO \"authentication aborted\""])

def handleSaslData (nonce : Text) (sasl : Sasl) (b64 : Text) : Handler := fun e =>
  match sasl with
  | .scram => handleScramLine s nonce b64 { e with pending := none }
  | .plain => decodePlain b64 { e with pending := none }

def onEvent (nonce : Nat → Text) (ev : ReaderEvent) : Handler := fun e =>
  match ev with
  | .continue _ => (e, [.reply "OK"])
  | .error message => (e, [.reply ("NO \"" ++ message ++ "\"")])
  | .line parts =>
    match e.pending with
    | some (.authLine sasl) =>
      if saslData parts = ['*'] then resumed s nonce (abort e)
      else handleSaslData s (nonce 0) sasl (saslData parts) e
    | some _ => ({ e with queued := e.queued ++ [parts] }, [])
    | none => handleLine s (nonce 0) parts e

/-- The events of one chunk; what comes behind LOGOUT and STARTTLS is dropped. -/
def onEvents : (Nat → Nat → Text) → List ReaderEvent → Handler
  | _, [], e => (e, [])
  | nonce, ev :: evs, e =>
    let r := onEvent s (nonce 0) ev e
    if r.1.closed || r.1.awaitingTls then r
    else
      let q := onEvents (fun i => nonce (i + 1)) evs r.1
      (q.1, r.2 ++ q.2)

def feed (nonce : Nat → Nat → Text) (chunk : Bytes) : Handler := fun e =>
  if e.closed then (e, [])
  else if e.awaitingTls then (e, [])
  else
    let r := e.reader.feed chunk
    onEvents s nonce r.2 { e with reader := r.1 }

def tlsUpgraded : Handler := fun e =>
  let e := { e with
    secure := true
    awaitingTls := false
    authed := false
    pending := none
    queued := []
    reader := newReader s }
  (e, capabilities s e ++ [ManageSieveAction.reply "OK \"TLS negotiated\""])

def authGiven (ok : Bool) : Handler := fun e =>
  if ok then ({ e with pending := none, authed := true }, [.reply "OK \"authenticated\""])
  else ({ e with pending := none }, [authenticationFailed])

def authResult (nonce : Nat → Text) (ok : Bool) (e : Engine) :
    Option (Engine × List ManageSieveAction) :=
  match e.pending with
  | some (.auth _) | some (.authLine _) => some (resumed s nonce (authGiven ok e))
  | _ => none

def opText : OpResult → Text
  | .ok => "OK"
  | .no none message | .no (some []) message => "NO " ++ quote message
  | .no (some code) message => "NO (" ++ code ++ ") " ++ quote message

def opGiven (result : OpResult) : Handler := fun e =>
  ({ e with pending := none }, [.reply (opText result)])

def opResult (nonce : Nat → Text) (result : OpResult) (e : Engine) :
    Option (Engine × List ManageSieveAction) :=
  match e.pending with
  | some (.putScript _) | some .checkScript | some .op => some (resumed s nonce (opGiven result e))
  | _ => none

def scriptLine (script : Script) : Text :=
  quote script.name ++ (if script.active then " ACTIVE".toList else [])

def listGiven (scripts : List Script) : Handler := fun e =>
  ({ e with pending := none },
    scripts.map (fun script => ManageSieveAction.reply (scriptLine script)) ++ [ManageSieveAction.reply "OK"])

def listResult (nonce : Nat → Text) (scripts : List Script) (e : Engine) :
    Option (Engine × List ManageSieveAction) :=
  match e.pending with
  | some .list => some (resumed s nonce (listGiven scripts e))
  | _ => none

def scriptBytes (content : Text) : Bytes :=
  let bytes := utf8Encode content
  utf8Encode ("\x7b" ++ natText bytes.length ++ "\x7d\r\n") ++ bytes ++ utf8Encode "\r\nOK\r\n"

def getGiven (content : Option Text) : Handler := fun e =>
  ({ e with pending := none },
    [match content with
      | none => .reply "NO \"script not found\""
      | some content => .replyBytes (scriptBytes content)])

def getResult (nonce : Nat → Text) (content : Option Text) (e : Engine) :
    Option (Engine × List ManageSieveAction) :=
  match e.pending with
  | some (.get _) => some (resumed s nonce (getGiven content e))
  | _ => none

def scramKeysGiven (keys : Option ScramStoredKeys) : Handler := fun e =>
  match e.scram with
  | none => ({ e with pending := none }, [])
  | some sc =>
    match sc.session.provideKeys s.host keys with
    | (session, .send message) =>
      ({ e with scram := some { sc with session := session }, pending := some (.authLine .scram) },
        [challenge message])
    | (_, step) => ({ e with scram := none, pending := none }, scramRejected step)

def scramKeysResult (nonce : Nat → Text) (keys : Option ScramStoredKeys) (e : Engine) :
    Option (Engine × List ManageSieveAction) :=
  match e.pending with
  | some .scramKeys => some (resumed s nonce (scramKeysGiven s keys e))
  | _ => none

inductive Call where
  | greeting
  | feed (chunk : Bytes)
  | tlsUpgraded
  | authResult (ok : Bool)
  | opResult (result : OpResult)
  | listResult (scripts : List Script)
  | getResult (content : Option Text)
  | scramKeysResult (keys : Option ScramStoredKeys)

/-- One call of a public method, with the nonces drawn during it: a row for each event of a
chunk, the first row for an answer. -/
structure Input where
  call : Call
  nonce : Nat → Nat → Text := fun _ _ => []

def step (i : Input) (e : Engine) : Option (Engine × List ManageSieveAction) :=
  match i.call with
  | .greeting => some (e, greeting s e)
  | .feed chunk => some (feed s i.nonce chunk e)
  | .tlsUpgraded => some (tlsUpgraded s e)
  | .authResult ok => authResult s (i.nonce 0) ok e
  | .opResult result => opResult s (i.nonce 0) result e
  | .listResult scripts => listResult s (i.nonce 0) scripts e
  | .getResult content => getResult s (i.nonce 0) content e
  | .scramKeysResult keys => scramKeysResult s (i.nonce 0) keys e

/-- A run: the engine after the calls and the actions of each. `none` when a call is
refused. -/
def run (e : Engine) : List Input → Option (Engine × List (List ManageSieveAction))
  | [] => some (e, [])
  | i :: is =>
    match step s i e with
    | none => none
    | some (e', acts) => (run e' is).map fun p => (p.1, acts :: p.2)

end

end Ionosphere.ManageSieve
