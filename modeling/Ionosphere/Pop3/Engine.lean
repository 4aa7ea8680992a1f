import Ionosphere.Core.Limits
import Ionosphere.Core.Scram
import Ionosphere.Js.Decoder
import Ionosphere.Js.Number

/-! The POP3 engine: bytes in, actions out, no sockets. Lines are taken off a text buffer as
long as no answer of the backend is awaited. A message's `ref` is a token of the backend
that the engine hands back unread, of any type. Every line that is handled is given the
nonce the host would draw for it; only a SCRAM exchange reads it. A public method the source
refuses by an exception returns `none`. -/
namespace Ionosphere.Pop3

open Ionosphere.Js Ionosphere.Core

local instance : Coe String Text := ⟨String.toList⟩

def CR : UInt8 := 0x0d
def LF : UInt8 := 0x0a
def DOT : UInt8 := 0x2e
def crlf : Bytes := [CR, LF]
def terminator : Bytes := [DOT, CR, LF]

inductive Pop3State where
  | authorization
  | transaction
  deriving DecidableEq

structure Pop3EngineMessage (ρ : Type) where
  uidl : Text
  sizeBytes : Nat
  ref : ρ
  deriving DecidableEq

inductive Pop3Action (ρ : Type) where
  | reply (text : Text)
  | replyBinary (bytes : Bytes)
  | close
  | startTls
  | auth (user pass : Text)
  | scramKeys (user : Text)
  | authVerified (user : Text)
  | authFailed (user : Option Text) (mechanism : Text)
  | openMaildrop
  | retrieve (msgnum : Nat)
  | commitDeletions (messages : List (Pop3EngineMessage ρ))
  deriving DecidableEq

inductive Pop3OpenMaildropResult (ρ : Type) where
  | opened (messages : List (Pop3EngineMessage ρ))
  | refused (inUse : Bool)
  deriving DecidableEq

structure Options where
  hostname : Text
  secure : Bool := false
  tlsAvailable : Bool := false
  scramOffered : Bool := false
  scramDecoySecret : Bytes := []
  allowInsecureAuth : Bool := false

/-- What an engine is built over. -/
structure Setup where
  host : Host
  options : Options

structure SessionMessage (ρ : Type) extends Pop3EngineMessage ρ where
  msgnum : Nat
  deleted : Bool
  deriving DecidableEq

/-- The number of body lines of TOP; `none` is a number too large for a float. -/
inductive RetrieveMode where
  | retr
  | top (lines : Option Nat)
  deriving DecidableEq

inductive Pending where
  | auth
  | scramKeys
  | openMaildrop
  | retrieve (msgnum : Nat) (mode : RetrieveMode)
  | commit
  deriving DecidableEq

inductive ScramStage where
  | clientFirst
  | clientFinal
  | serverFinal
  deriving DecidableEq

inductive SaslExchange where
  | plain
  | oauth (mechanism : OAuthMechanism)
  | scram (session : ScramServerSession) (stage : ScramStage) (username : Option Text)
  deriving DecidableEq

/-- The mutable fields of `Pop3Engine`. -/
structure Engine (ρ : Type) where
  state : Pop3State := .authorization
  secure : Bool
  awaitingTls : Bool := false
  decoder : Decoder := {}
  buffer : Text := []
  pending : Option Pending := none
  closed : Bool := false
  username : Option Text := none
  messages : List (SessionMessage ρ) := []
  awaitingSasl : Option SaslExchange := none

abbrev Handler (ρ : Type) := Engine ρ → Engine ρ × List (Pop3Action ρ)

def stripCr (line : Bytes) : Bytes := if line.getLast? = some CR then line.dropLast else line

def splitLinesGo : Bytes → Bytes → List Bytes
  | cur, [] => if cur = [] then [] else [cur]
  | cur, b :: bs =>
    if b = LF then stripCr cur :: splitLinesGo [] bs else splitLinesGo (cur ++ [b]) bs

/-- The lines of a message; only a complete one loses the CR before its LF. -/
def splitLines (bytes : Bytes) : List Bytes := splitLinesGo [] bytes

def stuffLine (line : Bytes) : Bytes := if line.head? = some DOT then DOT :: line else line

def buildMultilineBinary (statusLine : Text) (bodyLines : List Bytes) : Bytes :=
  utf8Encode (statusLine ++ "\r\n") ++ bodyLines.flatMap (fun line => stuffLine line ++ crlf) ++
    terminator

def buildTextMultiline (statusLine : Text) (lines : List Text) : Text :=
  join "\r\n"
    (statusLine :: (lines.map fun l => if l.head? = some '.' then '.' :: l else l) ++ [['.']])

/-- The header, and the blank line with `bodyLineCount` lines after it when there is one. These
lines are pushed by one call, which throws if they are too many. -/
def buildTopBytes (argumentLimit : Nat) (fullBytes : Bytes) (bodyLineCount : Option Nat) :
    Option Bytes :=
  let allLines := splitLines fullBytes
  let headerLines := allLines.takeWhile (· ≠ [])
  let body := (allLines.dropWhile (· ≠ [])).drop 1
  let bodyLines := match bodyLineCount with
    | some n => body.take n
    | none => body
  if argumentLimit < bodyLines.length then none
  else
    let outLines :=
      if headerLines.length < allLines.length then headerLines ++ [] :: bodyLines else headerLines
    some (buildMultilineBinary "+OK top of message follows" outLines)

section

variable {ρ : Type}

def Pop3Action.err (text : Text) : Pop3Action ρ := .reply ("-ERR " ++ text)

def octets (messages : List (SessionMessage ρ)) : Nat := (messages.map (·.sizeBytes)).sum

def active (e : Engine ρ) : List (SessionMessage ρ) := e.messages.filter fun m => !m.deleted

variable (s : Setup)

def authAllowed (e : Engine ρ) : Bool := e.secure || s.options.allowInsecureAuth

def starttlsOffered (e : Engine ρ) : Bool := s.options.tlsAvailable && !e.secure

def insecureAuthRejected : List (Pop3Action ρ) :=
  [.err "[AUTH] TLS required for authentication (use implicit TLS, port 995)"]

def badSequence : List (Pop3Action ρ) := [.err "bad sequence of commands"]

def signingOff : Text := "+OK " ++ s.options.hostname ++ " POP3 server signing off"

def greeting : List (Pop3Action ρ) := [.reply ("+OK " ++ s.options.hostname ++ " POP3 server ready")]

def scramMechanism : Text := "SCRAM-SHA-256"

def authenticationFailed : Pop3Action ρ := .err "[AUTH] authentication failed"

def scramFailedAction : ScramStep → Pop3Action ρ
  | .failed user => .authFailed user scramMechanism
  | _ => .authFailed none scramMechanism

def scramRejected (step : ScramStep) : List (Pop3Action ρ) :=
  [scramFailedAction step, authenticationFailed]

def requestAuth (user : Text) (action : Pop3Action ρ) : Handler ρ := fun e =>
  ({ e with awaitingSasl := none, username := some user, pending := some .auth }, [action])

def handleScram (nonce : Text) (session : ScramServerSession) (stage : ScramStage)
    (username : Option Text) (text : Text) : Handler ρ := fun e =>
  match stage with
  | .clientFirst =>
    match session.start nonce text with
    | (session, .lookup user) =>
      ({ e with
          awaitingSasl := some (.scram session .clientFinal username)
          pending := some .scramKeys }, [.scramKeys user])
    | (_, step) => ({ e with awaitingSasl := none }, scramRejected step)
  | _ =>
    match session.final s.host text with
    | (session, .done user message) =>
      ({ e with awaitingSasl := some (.scram session .serverFinal (some user)) },
        [.reply ("+ " ++ base64Encode (utf8Encode message))])
    | (_, step) => ({ e with awaitingSasl := none }, scramRejected step)

/-- A line of the client's data. After the server's last message any line but `*` is the
client's consent. -/
def handleSaslData (nonce : Text) (sasl : SaslExchange) (data : Text) : Handler ρ := fun e =>
  if data = ['*'] then
    ({ e with awaitingSasl := none }, [.err "[AUTH] authentication cancelled"])
  else
    match sasl with
    | .scram _ .serverFinal username =>
      requestAuth (username.getD []) (.authVerified (username.getD [])) e
    | sasl =>
      match decodeSaslBase64 data with
      | none => ({ e with awaitingSasl := none }, [.err "[AUTH] invalid base64"])
      | some bytes =>
        match sasl with
        | .scram session stage username =>
          handleScram s nonce session stage username (utf8Decode bytes) e
        | .plain =>
          match parseSaslPlain bytes with
          | none => ({ e with awaitingSasl := none }, [.err "[AUTH] malformed PLAIN response"])
          | some creds => requestAuth creds.user (.auth creds.user creds.pass) e
        | .oauth mechanism =>
          match parseSaslOAuth mechanism (utf8Decode bytes) with
          | none =>
            ({ e with awaitingSasl := none },
              [.err ("[AUTH] malformed " ++ mechanism.text ++ " response")])
          | some creds => requestAuth creds.user (.auth creds.user creds.pass) e

def mechanismNames : List Text :=
  (if s.options.scramOffered then [scramMechanism] else []) ++
    ["PLAIN".toList, "XOAUTH2".toList, "OAUTHBEARER".toList]

def saslExchange (mech : Text) : Option SaslExchange :=
  if mech = scramMechanism then
    if s.options.scramOffered then
      some (.scram (ScramServerSession.new s.options.scramDecoySecret) .clientFirst none)
    else none
  else if mech = "PLAIN".toList then some .plain
  else if mech = OAuthMechanism.xoauth2.text then some (.oauth .xoauth2)
  else if mech = OAuthMechanism.oauthbearer.text then some (.oauth .oauthbearer)
  else none

def splitWord (text : Text) : Text × Text :=
  match splitFirst ' ' text with
  | none => (text, [])
  | some (word, rest) => (word, trim rest)

def cmdAuth (nonce rest : Text) : Handler ρ := fun e =>
  if e.state ≠ .authorization then (e, badSequence)
  else if !authAllowed s e then (e, insecureAuthRejected)
  else if rest = [] then (e, [.reply (buildTextMultiline "+OK" (mechanismNames s))])
  else
    let p := splitWord rest
    match saslExchange s (toUpperCase s.host.cases p.1) with
    | none => (e, [.err "[AUTH] unsupported SASL mechanism"])
    | some sasl =>
      let e := { e with awaitingSasl := some sasl }
      if p.2 = [] then (e, [.reply "+ "]) else handleSaslData s nonce sasl p.2 e

def cmdUser (name : Text) : Handler ρ := fun e =>
  if e.state ≠ .authorization then (e, badSequence)
  else if !authAllowed s e then (e, insecureAuthRejected)
  else if name = [] then (e, [.err "missing username"])
  else ({ e with username := some name }, [.reply "+OK"])

def cmdPass (pass : Text) : Handler ρ := fun e =>
  if e.state ≠ .authorization then (e, badSequence)
  else if !authAllowed s e then (e, insecureAuthRejected)
  else
    match e.username with
    | none | some [] => (e, badSequence)
    | some user =>
      if pass = [] then (e, [.err "missing password"])
      else ({ e with pending := some .auth }, [.auth user pass])

def cmdStls : Handler ρ := fun e =>
  if e.secure then (e, [.err "TLS already active"])
  else if !starttlsOffered s e then (e, [.err "STLS not available"])
  else if e.state ≠ .authorization then (e, badSequence)
  else ({ e with awaitingTls := true }, [.reply "+OK Begin TLS negotiation", .startTls])

def capabilities (e : Engine ρ) : List Text :=
  (if starttlsOffered s e then ["STLS".toList] else []) ++
    (if authAllowed s e then ["USER".toList] else []) ++
    ["TOP".toList, "UIDL".toList, "RESP-CODES".toList, "AUTH-RESP-CODE".toList,
      "PIPELINING".toList] ++
    (if authAllowed s e then [join " " ("SASL".toList :: mechanismNames s)] else []) ++
    ["IMPLEMENTATION ionosphere".toList]

def cmdCapa : Handler ρ := fun e =>
  (e, [.reply (buildTextMultiline "+OK Capability list follows" (capabilities s e))])

/-- `parseNonNegativeInt`: the inner `none` is `Infinity`. -/
def parseNonNegativeInt (text : Text) : Option (Option Nat) :=
  if text ≠ [] ∧ text.all isDigit then some (decimalNumber text) else none

def getActiveMessage (e : Engine ρ) (arg : Text) : Except Text (SessionMessage ρ) :=
  match parseNonNegativeInt arg with
  | none => .error "invalid message number"
  | some n =>
    match e.messages.find? fun m => some m.msgnum = n with
    | none => .error "no such message"
    | some msg => if msg.deleted then .error "message deleted" else .ok msg

def messagesText (messages : List (SessionMessage ρ)) : Text :=
  natText messages.length ++ " messages (" ++ natText (octets messages) ++ " octets)"

def cmdStat : Handler ρ := fun e =>
  (e, [.reply ("+OK " ++ natText (active e).length ++ " " ++ natText (octets (active e)))])

/-- LIST and UIDL: the line of one message, or a list of them under `heading`. -/
def cmdScan (heading : Text) (column : SessionMessage ρ → Text) (arg : Text) : Handler ρ := fun e =>
  if arg = [] then
    (e, [.reply (buildTextMultiline heading
      ((active e).map fun m => natText m.msgnum ++ " " ++ column m))])
  else
    match getActiveMessage e arg with
    | .error why => (e, [.err why])
    | .ok m => (e, [.reply ("+OK " ++ natText m.msgnum ++ " " ++ column m)])

def cmdList (arg : Text) : Handler ρ := fun e =>
  cmdScan ("+OK " ++ messagesText (active e)) (fun m => natText m.sizeBytes) arg e

def cmdUidl (arg : Text) : Handler ρ := cmdScan "+OK" (fun m => m.uidl) arg

def cmdRetr (arg : Text) : Handler ρ := fun e =>
  match getActiveMessage e arg with
  | .error why => (e, [.err why])
  | .ok m => ({ e with pending := some (.retrieve m.msgnum .retr) }, [.retrieve m.msgnum])

def cmdTop (rest : Text) : Handler ρ := fun e =>
  match (splitWhite rest).filter (· ≠ []) with
  | [msgArg, linesArg] =>
    match getActiveMessage e msgArg with
    | .error why => (e, [.err why])
    | .ok m =>
      match parseNonNegativeInt linesArg with
      | none => (e, [.err "invalid arguments"])
      | some lineCount =>
        ({ e with pending := some (.retrieve m.msgnum (.top lineCount)) }, [.retrieve m.msgnum])
  | _ => (e, [.err "invalid arguments"])

/-- `deleted` set on the message found by its number. -/
def markDeleted (msgnum : Nat) : List (SessionMessage ρ) → List (SessionMessage ρ)
  | [] => []
  | m :: ms => if m.msgnum = msgnum then { m with deleted := true } :: ms else m :: markDeleted msgnum ms

def cmdDele (arg : Text) : Handler ρ := fun e =>
  match getActiveMessage e arg with
  | .error why => (e, [.err why])
  | .ok m =>
    ({ e with messages := markDeleted m.msgnum e.messages },
      [.reply ("+OK message " ++ natText m.msgnum ++ " deleted")])

def cmdRset : Handler ρ := fun e =>
  let messages := e.messages.map fun m => { m with deleted := false }
  ({ e with messages := messages }, [.reply ("+OK maildrop has " ++ messagesText messages)])

def cmdQuit : Handler ρ := fun e =>
  match e.state with
  | .authorization => ({ e with closed := true }, [.reply (signingOff s), .close])
  | .transaction =>
    ({ e with pending := some .commit },
      [.commitDeletions ((e.messages.filter (·.deleted)).map (·.toPop3EngineMessage))])

inductive Verb where
  | capa | quit | user | pass | stls | auth | apop | noop | stat | list | retr | dele | rset | top
  | uidl
  deriving DecidableEq

def verbTable : List (String × Verb) :=
  [("CAPA", .capa), ("QUIT", .quit), ("USER", .user), ("PASS", .pass), ("STLS", .stls),
    ("AUTH", .auth), ("APOP", .apop), ("NOOP", .noop), ("STAT", .stat), ("LIST", .list),
    ("RETR", .retr), ("DELE", .dele), ("RSET", .rset), ("TOP", .top), ("UIDL", .uidl)]

def verbOf (name : Text) : Option Verb :=
  (verbTable.find? fun row => row.1.toList = name).map (·.2)

def requireTransaction (fn : Handler ρ) : Handler ρ := fun e =>
  if e.state ≠ .transaction then (e, badSequence) else fn e

def dispatch (nonce : Text) (verb : Verb) (rest : Text) : Handler ρ :=
  match verb with
  | .capa => cmdCapa s
  | .quit => cmdQuit s
  | .user => cmdUser s rest
  | .pass => cmdPass s rest
  | .stls => cmdStls s
  | .auth => cmdAuth s nonce rest
  | .apop => fun e => (e, [.err "APOP not supported"])
  | .noop => requireTransaction fun e => (e, [.reply "+OK"])
  | .stat => requireTransaction cmdStat
  | .list => requireTransaction (cmdList rest)
  | .retr => requireTransaction (cmdRetr rest)
  | .dele => requireTransaction (cmdDele rest)
  | .rset => requireTransaction cmdRset
  | .top => requireTransaction (cmdTop rest)
  | .uidl => requireTransaction (cmdUidl rest)

def commandOf (line : Text) : Option (Verb × Text) :=
  let p := splitWord (trim line)
  (verbOf (toUpperCase s.host.cases p.1)).map fun verb => (verb, p.2)

def handleLine (nonce line : Text) : Handler ρ := fun e =>
  match commandOf s line with
  | none => (e, [.err "unknown command"])
  | some (verb, rest) => dispatch s nonce verb rest e

def handleInput (nonce line : Text) : Handler ρ := fun e =>
  match e.awaitingSasl with
  | some sasl => handleSaslData s nonce sasl line e
  | none => handleLine s nonce line e

def guardBuffer : Handler ρ := fun e =>
  let limit := if e.pending.isNone then maxCommandLine else maxPipelinePendingBytes
  if utf16Length e.buffer ≤ limit then (e, [])
  else
    ({ e with buffer := [], closed := true }, [.err "line too long, closing connection", .close])

def chompCr (line : Text) : Text := if line.getLast? = some '\r' then line.dropLast else line

/-- The lines of the buffer, until one has to wait. Each takes at least one character off
it, so its length bounds the number of rounds. -/
def drainLoop : Nat → (Nat → Text) → Handler ρ
  | 0, _, e => (e, [])
  | fuel + 1, nonce, e =>
    if e.pending.isSome || e.closed then (e, [])
    else
      match splitFirst '\n' e.buffer with
      | none => (e, [])
      | some (line, rest) =>
        let r := handleInput s (nonce 0) (chompCr line) { e with buffer := rest }
        let q := drainLoop fuel (fun i => nonce (i + 1)) r.1
        (q.1, r.2 ++ q.2)

def drain (nonce : Nat → Text) : Handler ρ := fun e =>
  let r := drainLoop s e.buffer.length nonce e
  if r.1.closed then r
  else
    let q := guardBuffer r.1
    (q.1, r.2 ++ q.2)

def feed (nonce : Nat → Text) (chunk : Bytes) : Handler ρ := fun e =>
  if e.awaitingTls then (e, [])
  else if e.closed then (e, [])
  else
    let r := e.decoder.decode chunk
    drain s nonce { e with decoder := r.1, buffer := e.buffer ++ r.2 }

def resumed (nonce : Nat → Text) (r : Engine ρ × List (Pop3Action ρ)) :
    Engine ρ × List (Pop3Action ρ) :=
  let q := drain s nonce r.1
  (q.1, r.2 ++ q.2)

def scramKeysGiven (keys : Option ScramStoredKeys) : Handler ρ := fun e =>
  match e.awaitingSasl with
  | some (.scram session stage username) =>
    match session.provideKeys s.host keys with
    | (session, .send message) =>
      ({ e with pending := none, awaitingSasl := some (.scram session stage username) },
        [.reply ("+ " ++ base64Encode (utf8Encode message))])
    | (_, step) => ({ e with pending := none, awaitingSasl := none }, scramRejected step)
  | _ => ({ e with pending := none }, [])

def scramKeysResult (nonce : Nat → Text) (keys : Option ScramStoredKeys) (e : Engine ρ) :
    Option (Engine ρ × List (Pop3Action ρ)) :=
  match e.pending with
  | some .scramKeys => some (resumed s nonce (scramKeysGiven s keys e))
  | _ => none

/-- After a success the maildrop is asked for, and the lines go on waiting. -/
def authGiven (ok : Bool) : Handler ρ := fun e =>
  if ok then ({ e with pending := some .openMaildrop }, [.openMaildrop])
  else ({ e with pending := none, username := none }, [authenticationFailed])

def authResult (nonce : Nat → Text) (ok : Bool) (e : Engine ρ) :
    Option (Engine ρ × List (Pop3Action ρ)) :=
  match e.pending with
  | some .auth => some (if ok then authGiven ok e else resumed s nonce (authGiven ok e))
  | _ => none

def numbered (messages : List (Pop3EngineMessage ρ)) : List (SessionMessage ρ) :=
  messages.zipIdx.map fun p => ⟨p.1, p.2 + 1, false⟩

def maildropGiven (result : Pop3OpenMaildropResult ρ) : Handler ρ := fun e =>
  match result with
  | .refused _ => ({ e with pending := none, username := none }, [.err "[IN-USE] maildrop locked"])
  | .opened messages =>
    ({ e with pending := none, messages := numbered messages, state := .transaction },
      [.reply ("+OK maildrop has " ++ messagesText (numbered messages))])

def openMaildropResult (nonce : Nat → Text) (result : Pop3OpenMaildropResult ρ) (e : Engine ρ) :
    Option (Engine ρ × List (Pop3Action ρ)) :=
  match e.pending with
  | some .openMaildrop => some (resumed s nonce (maildropGiven result e))
  | _ => none

def messageGiven (result : Option Bytes) (e : Engine ρ) : Option (Engine ρ × List (Pop3Action ρ)) :=
  match e.pending with
  | some (.retrieve msgnum mode) =>
    let answer : Option (Pop3Action ρ) :=
      match result, e.messages.find? (·.msgnum = msgnum) with
      | none, _ => some (.err "[SYS/TEMP] failed to retrieve message")
      | some _, none => some (.err "[SYS/TEMP] internal error")
      | some bytes, some msg =>
        match mode with
        | .retr =>
          some (.replyBinary
            (buildMultilineBinary ("+OK " ++ natText msg.sizeBytes ++ " octets") (splitLines bytes)))
        | .top lines => (buildTopBytes s.host.argumentLimit bytes lines).map .replyBinary
    answer.map fun a => ({ e with pending := none }, [a])
  | _ => none

def retrieveResult (nonce : Nat → Text) (result : Option Bytes) (e : Engine ρ) :
    Option (Engine ρ × List (Pop3Action ρ)) :=
  (messageGiven s result e).map (resumed s nonce)

def commitGiven (ok : Bool) : Handler ρ := fun e =>
  ({ e with pending := none, closed := true },
    [if ok then .reply (signingOff s) else .err "[SYS/TEMP] failed to commit deletions", .close])

def commitDeletionsResult (ok : Bool) (e : Engine ρ) :
    Option (Engine ρ × List (Pop3Action ρ)) :=
  match e.pending with
  | some .commit => some (commitGiven s ok e)
  | _ => none

def tlsEstablished (e : Engine ρ) : Engine ρ :=
  { e with secure := true, awaitingTls := false, username := none }

def newEngine (ρ : Type) : Engine ρ := { secure := s.options.secure }

inductive Call (ρ : Type) where
  | greeting
  | feed (chunk : Bytes)
  | scramKeysResult (keys : Option ScramStoredKeys)
  | authResult (ok : Bool)
  | openMaildropResult (result : Pop3OpenMaildropResult ρ)
  | retrieveResult (result : Option Bytes)
  | commitDeletionsResult (ok : Bool)
  | tlsEstablished

/-- One call of a public method, with the nonces drawn during it. -/
structure Input (ρ : Type) where
  call : Call ρ
  nonce : Nat → Text := fun _ => []

def step (i : Input ρ) (e : Engine ρ) : Option (Engine ρ × List (Pop3Action ρ)) :=
  match i.call with
  | .greeting => some (e, greeting s)
  | .feed chunk => some (feed s i.nonce chunk e)
  | .scramKeysResult keys => scramKeysResult s i.nonce keys e
  | .authResult ok => authResult s i.nonce ok e
  | .openMaildropResult result => openMaildropResult s i.nonce result e
  | .retrieveResult result => retrieveResult s i.nonce result e
  | .commitDeletionsResult ok => commitDeletionsResult s ok e
  | .tlsEstablished => some (tlsEstablished e, [])

/-- A run: the engine after the calls and the actions of each. `none` when a call is
refused. -/
def run (e : Engine ρ) : List (Input ρ) → Option (Engine ρ × List (List (Pop3Action ρ)))
  | [] => some (e, [])
  | i :: is =>
    match step s i e with
    | none => none
    | some (e', acts) => (run e' is).map fun p => (p.1, acts :: p.2)

end

end Ionosphere.Pop3
