import Ionosphere.Core.Limits
import Ionosphere.Core.Scram
import Ionosphere.Lib.Lines
import Ionosphere.Smtp.Params

/-!
The SMTP engine: bytes in, actions out, no sockets. A handler maps the engine to
the engine it leaves and the actions it pushes. `turn` is one pass of the loop in
`pump`; it also names the bytes that pass takes off the buffer (`Consumed`), which
the source does not report and no definition here reads back.

RCPT, the end of a message, AUTH, SCRAM key lookup and STARTTLS stop the loop
until the adapter answers (`awaiting`).
-/

namespace Ionosphere.Smtp

open Ionosphere.Js Ionosphere.Core Ionosphere.Lib

def CR : UInt8 := 0x0d
def LF : UInt8 := 0x0a
def DOT : UInt8 := 0x2e
def crlfBytes : Bytes := [CR, LF]

def maxDataLine : Nat := 1024 * 1024

inductive Profile where
  | relay
  | submission
  deriving DecidableEq, Repr

structure Options where
  hostname : Text
  maxSizeBytes : Nat
  tlsAvailable : Bool
  profile : Profile := .relay
  authOffered : Bool := false
  allowInsecureAuth : Bool := false
  scramDecoySecret : Bytes := []
  scramOffered : Bool := false

structure RcptDsn where
  notify : Option Text
  orcpt : Option Text
  deriving DecidableEq, Repr

structure MailDsn where
  ret : Option Ret := none
  envid : Option Text := none
  deriving DecidableEq, Repr

structure SmtpDsnParams extends MailDsn where
  perRcpt : Option (List (Text × RcptDsn)) := none
  deriving DecidableEq, Repr

structure Delivery where
  mailFrom : Text
  heloName : Text
  rcptTo : List Text
  raw : Bytes
  authenticatedAs : Option Text
  dsn : Option SmtpDsnParams
  deriving DecidableEq, Repr

inductive SmtpAction where
  | reply (text : Text)
  | startTls
  | rcpt (address : Text)
  | auth (user pass : Text)
  | scramKeys (user : Text)
  | authVerified (user : Text)
  | authFailed (user : Option Text) (mechanism : Text)
  | deliver (d : Delivery)
  | close
  deriving DecidableEq, Repr

/-- A refusal of the backend: code, enhanced code, message. -/
abbrev Refusal := ParamSyntaxError

abbrev RcptOutcome := Except Refusal Unit

abbrev DeliverOutcome := Except Refusal (Option Text)

inductive ConnState where
  | init
  | greeted
  | mail
  | rcpt
  | data
  | bdat
  deriving DecidableEq, Repr

inductive Awaiting where
  | rcpt
  | deliver
  | tls
  | auth
  | scramKeys
  deriving DecidableEq, Repr

inductive AuthContinuation where
  | plain
  | loginUsername
  | loginPassword (user : Text)
  | oauth (mechanism : OAuthMechanism)
  | scramKeys (session : ScramServerSession)
  | scramFinal (session : ScramServerSession)
  | scramServerFinal (session : ScramServerSession) (username : Text)
  deriving DecidableEq, Repr

/-- The mutable fields of `SmtpEngine`; `nonces` counts the random nonces drawn. -/
structure Engine where
  buffer : Bytes := []
  state : ConnState := .init
  isTls : Bool := false
  awaiting : Option Awaiting := none
  closed : Bool := false
  mailFrom : Option Text := none
  heloName : Text := []
  rcptTo : List Text := []
  rcptDsn : List (Text × RcptDsn) := []
  mailDsn : MailDsn := {}
  rcptCount : Nat := 0
  bdatRemaining : Nat := 0
  bdatLast : Bool := false
  errorCount : Nat := 0
  pendingRcptAddress : Option Text := none
  dataChunks : List Bytes := []
  dataSize : Nat := 0
  dataOverflow : Bool := false
  pendingOverflow : Bool := false
  authenticatedAs : Option Text := none
  authContinuation : Option AuthContinuation := none
  pendingAuthUser : Option Text := none
  nonces : Nat := 0
  deriving DecidableEq

/-- A handler: the engine it leaves and what it pushes on `actions`. -/
abbrev Handler := Engine → Engine × List SmtpAction

def crlf : Text := ['\r', '\n']

def reply (code : Nat) (enhanced message : String) : SmtpAction :=
  .reply (natText code ++ " ".toList ++ enhanced.toList ++ " ".toList ++ message.toList ++ crlf)

def refusal (r : Refusal) : SmtpAction :=
  .reply (natText r.code ++ " ".toList ++ r.enhanced ++ " ".toList ++ r.message ++ crlf)

def rawReply (line : Text) : SmtpAction := .reply (line ++ crlf)

def push (a : SmtpAction) : Handler := fun e => (e, [a])

def resetTransaction (e : Engine) : Engine :=
  { e with
    mailFrom := none
    rcptTo := []
    pendingRcptAddress := none
    dataChunks := []
    dataSize := 0
    dataOverflow := false
    bdatRemaining := 0
    bdatLast := false
    rcptDsn := []
    mailDsn := {}
    state := if e.state = .init then .init else .greeted }

section

variable (h : Host) (o : Options)

def authAllowed (e : Engine) : Bool := o.authOffered && (e.isTls || o.allowInsecureAuth)

def ehloCaps : List String :=
  ["8BITMIME", "PIPELINING", "ENHANCEDSTATUSCODES", "SMTPUTF8", "CHUNKING", "DSN"]

/-- The capability lines after the greeting line, each without its `250-`. -/
def ehloLines (e : Engine) : List Text :=
  ["SIZE ".toList ++ natText o.maxSizeBytes, "LIMITS RCPTMAX=".toList ++ natText maxRcptPerSession] ++
    ehloCaps.map String.toList ++
    (if o.tlsAvailable && !e.isTls then ["STARTTLS".toList] else []) ++
    (if authAllowed o e then
      [if o.scramOffered then "AUTH SCRAM-SHA-256 PLAIN LOGIN XOAUTH2 OAUTHBEARER".toList
        else "AUTH PLAIN LOGIN XOAUTH2 OAUTHBEARER".toList]
    else [])

/-- A multi-line 250 reply: every line but the last has a dash. -/
def multiline : List Text → Text
  | [] => []
  | [l] => "250 ".toList ++ l ++ crlf
  | l :: ls => "250-".toList ++ l ++ crlf ++ multiline ls

def handleEhlo (rest : Text) : Handler := fun e =>
  if rest = [] then (e, [reply 501 "5.5.4" "Syntax: EHLO hostname"])
  else
    let e := { resetTransaction e with state := .greeted, heloName := rest }
    (e, [.reply (multiline ((o.hostname ++ " Hello ".toList ++ rest) :: ehloLines o e))])

def handleHelo (rest : Text) : Handler := fun e =>
  if rest = [] then (e, [reply 501 "5.5.4" "Syntax: HELO hostname"])
  else
    ({ resetTransaction e with state := .greeted, heloName := rest },
      [rawReply ("250 ".toList ++ o.hostname ++ " Hello ".toList ++ rest)])

def handleMail (rest : Text) : Handler := fun e =>
  if e.state = .init then (e, [reply 503 "5.5.1" "Send HELO/EHLO first"])
  else if o.profile = .submission ∧ e.authenticatedAs = none then
    (e, [reply 530 "5.7.0" "Authentication required"])
  else if e.state ≠ .greeted then (e, [reply 503 "5.5.1" "Sender already specified"])
  else
    match parseMailFromArgs h.cases rest with
    | .error err => (e, [refusal err])
    | .ok parsed =>
      if (parsed.size.any fun n => o.maxSizeBytes < n) then
        (e, [reply 552 "5.3.4" "Message size exceeds fixed maximum message size"])
      else
        ({ e with
            mailFrom := some parsed.address
            mailDsn := { ret := parsed.ret, envid := parsed.envid }
            rcptTo := []
            state := .mail }, [reply 250 "2.1.0" "OK"])

/-- The parameters are recorded here, the address only by `rcptResult`. -/
def recordDsn (v : ParsedRcptTo) (m : List (Text × RcptDsn)) : List (Text × RcptDsn) :=
  if v.notify.isSome || v.orcpt.isSome then Assoc.set m v.address ⟨v.notify, v.orcpt⟩ else m

def handleRcpt (rest : Text) : Handler := fun e =>
  if e.state ≠ .mail ∧ e.state ≠ .rcpt then (e, [reply 503 "5.5.1" "Need MAIL before RCPT"])
  else
    match parseRcptToArgs h.cases rest with
    | .error err => (e, [refusal err])
    | .ok v =>
      if maxRcptPerSession ≤ e.rcptCount then (e, [reply 452 "4.5.3" "Too many recipients"])
      else
        ({ e with
            rcptCount := e.rcptCount + 1
            pendingRcptAddress := some v.address
            rcptDsn := recordDsn v e.rcptDsn
            awaiting := some .rcpt }, [.rcpt v.address])

/-- `BDAT n [LAST]`: the byte count and whether the chunk is the last. -/
def parseBdatArgs (rest : Text) : Option (Text × Bool) :=
  match splitWhite (trim rest) with
  | [n] => if n ≠ [] ∧ n.all isDigit then some (n, false) else none
  | [n, w] =>
    if n ≠ [] ∧ n.all isDigit ∧ toUpperCase h.cases w = "LAST".toList then some (n, true) else none
  | _ => none

def handleBdat (rest : Text) : Handler := fun e =>
  if e.state ≠ .rcpt ∧ e.state ≠ .bdat then (e, [reply 503 "5.5.1" "Need RCPT before BDAT"])
  else
    match parseBdatArgs h rest with
    | none => (e, [reply 501 "5.5.4" "Syntax: BDAT <bytes> [LAST]"])
    | some (digits, last) =>
      match decimalNumber digits with
      | none => (e, [reply 501 "5.5.4" "Syntax: BDAT <bytes> [LAST]"])
      | some n =>
        ({ e with
            dataOverflow := e.dataOverflow || decide (o.maxSizeBytes < roundInt (e.dataSize + n))
            bdatRemaining := n
            bdatLast := last
            state := .bdat }, [])

def handleData (rest : Text) : Handler := fun e =>
  if rest ≠ [] then (e, [reply 501 "5.5.4" "Syntax: DATA"])
  else if e.state ≠ .rcpt then (e, [reply 503 "5.5.1" "Need RCPT before DATA"])
  else
    ({ e with state := .data },
      [rawReply "354 Start mail input; end with <CRLF>.<CRLF>".toList])

def handleVrfy (rest : Text) : Handler :=
  if trim rest = [] then push (reply 501 "5.5.4" "Syntax: VRFY address")
  else push (reply 252 "2.1.5" "Cannot VRFY user, but will accept message")

def handleStartTls : Handler := fun e =>
  if !o.tlsAvailable then (e, [reply 502 "5.5.1" "Command not implemented"])
  else if e.isTls then (e, [reply 503 "5.5.1" "Already using TLS"])
  else
    ({ e with buffer := [], awaiting := some .tls },
      [reply 220 "2.0.0" "Ready to start TLS", .startTls])

def invalidBase64 : SmtpAction := reply 501 "5.5.2" "Invalid base64 encoding"

def credentialsInvalid : SmtpAction := reply 535 "5.7.8" "Authentication credentials invalid"

def requestAuth (user pass : Text) : Handler := fun e =>
  ({ e with pendingAuthUser := some user, awaiting := some .auth }, [.auth user pass])

def finishPlainAuth (b64 : Text) : Handler := fun e =>
  match decodeSaslBase64 b64 with
  | none => (e, [invalidBase64])
  | some bytes =>
    match parseSaslPlain bytes with
    | none => (e, [reply 501 "5.5.2" "Invalid PLAIN authentication response"])
    | some creds => requestAuth creds.user creds.pass e

def finishOAuthAuth (mechanism : OAuthMechanism) (b64 : Text) : Handler := fun e =>
  match decodeSaslBase64 b64 with
  | none => (e, [invalidBase64])
  | some bytes =>
    match parseSaslOAuth mechanism (utf8Decode bytes) with
    | none =>
      (e, [.reply ("501 5.5.2 Invalid ".toList ++ mechanism.text ++
        " authentication response".toList ++ crlf)])
    | some creds => requestAuth creds.user creds.pass e

def scramMechanism : Text := "SCRAM-SHA-256".toList

def scramFailedAction : ScramStep → SmtpAction
  | .failed user => .authFailed user scramMechanism
  | _ => .authFailed none scramMechanism

def scramRejected (step : ScramStep) : Handler := fun e =>
  ({ e with authContinuation := none }, [scramFailedAction step, credentialsInvalid])

def beginScram (session : ScramServerSession) (b64 : Text) : Handler := fun e =>
  match decodeSaslBase64 b64 with
  | none => ({ e with authContinuation := none }, [invalidBase64])
  | some bytes =>
    match session.start (h.serverNonce e.nonces) (utf8Decode bytes) with
    | (session, .lookup username) =>
      ({ e with
          authContinuation := some (.scramKeys session)
          awaiting := some .scramKeys
          nonces := e.nonces + 1 }, [.scramKeys username])
    | (_, step) => scramRejected step e

def handleAuth (rest : Text) : Handler := fun e =>
  if !authAllowed o e then (e, [reply 502 "5.5.1" "Command not implemented"])
  else if e.authenticatedAs.isSome then (e, [reply 503 "5.5.1" "Already authenticated"])
  else
    let (mechanism, initialResponse) := splitVerb h.cases rest
    if mechanism = "PLAIN".toList then
      if initialResponse ≠ [] then finishPlainAuth initialResponse e
      else ({ e with authContinuation := some .plain }, [rawReply "334".toList])
    else if mechanism = "LOGIN".toList then
      if initialResponse ≠ [] then
        match decodeSaslBase64 initialResponse with
        | none => (e, [invalidBase64])
        | some bytes =>
          ({ e with authContinuation := some (.loginPassword (utf8Decode bytes)) },
            [rawReply "334 UGFzc3dvcmQ6".toList])
      else
        ({ e with authContinuation := some .loginUsername },
          [rawReply "334 VXNlcm5hbWU6".toList])
    else if mechanism = scramMechanism then
      if !o.scramOffered then (e, [reply 504 "5.5.4" "Unrecognized authentication type"])
      else
        let session := ScramServerSession.new o.scramDecoySecret
        if initialResponse ≠ [] then beginScram h session initialResponse e
        else
          ({ e with authContinuation := some (.scramKeys session) }, [rawReply "334 ".toList])
    else if mechanism = OAuthMechanism.xoauth2.text then
      if initialResponse ≠ [] then finishOAuthAuth .xoauth2 initialResponse e
      else ({ e with authContinuation := some (.oauth .xoauth2) }, [rawReply "334 ".toList])
    else if mechanism = OAuthMechanism.oauthbearer.text then
      if initialResponse ≠ [] then finishOAuthAuth .oauthbearer initialResponse e
      else ({ e with authContinuation := some (.oauth .oauthbearer) }, [rawReply "334 ".toList])
    else (e, [reply 504 "5.5.4" "Unrecognized authentication type"])

def handleAuthContinuationLine (cont : AuthContinuation) (lineBytes : Bytes) : Handler := fun e =>
  let done : Engine := { e with authContinuation := none }
  if maxCommandLine < lineBytes.length then (done, [reply 501 "5.5.2" "Line too long"])
  else
    let line := trim (utf8Decode lineBytes)
    if line = ['*'] then (done, [reply 501 "5.7.0" "Authentication cancelled"])
    else
      match cont with
      | .plain => finishPlainAuth line done
      | .oauth mechanism => finishOAuthAuth mechanism line done
      | .scramKeys session => beginScram h session line e
      | .scramServerFinal _ username =>
        ({ done with awaiting := some .auth, pendingAuthUser := some username },
          [.authVerified username])
      | .scramFinal session =>
        match decodeSaslBase64 line with
        | none => (done, [invalidBase64])
        | some bytes =>
          match session.final h (utf8Decode bytes) with
          | (session, .done username message) =>
            ({ e with authContinuation := some (.scramServerFinal session username) },
              [rawReply ("334 ".toList ++ base64Encode (utf8Encode message))])
          | (_, step) => scramRejected step e
      | .loginUsername =>
        match decodeSaslBase64 line with
        | none => (done, [invalidBase64])
        | some bytes =>
          ({ e with authContinuation := some (.loginPassword (utf8Decode bytes)) },
            [rawReply "334 UGFzc3dvcmQ6".toList])
      | .loginPassword user =>
        match decodeSaslBase64 line with
        | none => (done, [invalidBase64])
        | some bytes => requestAuth user (utf8Decode bytes) done

def quit : Handler := fun e => ({ e with closed := true }, [reply 221 "2.0.0" "Bye", .close])

def handleVerb (verb rest : Text) : Handler :=
  if verb = "EHLO".toList then handleEhlo o rest
  else if verb = "HELO".toList then handleHelo o rest
  else if verb = "MAIL".toList then handleMail h o rest
  else if verb = "RCPT".toList then handleRcpt h rest
  else if verb = "DATA".toList then handleData rest
  else if verb = "BDAT".toList then handleBdat h o rest
  else if verb = "RSET".toList then fun e => (resetTransaction e, [reply 250 "2.1.5" "OK"])
  else if verb = "NOOP".toList then push (reply 250 "2.0.0" "OK")
  else if verb = "QUIT".toList then quit
  else if verb = "VRFY".toList then handleVrfy rest
  else if verb = "EXPN".toList then push (reply 502 "5.5.1" "Command not implemented")
  else if verb = "HELP".toList then push (reply 214 "2.0.0" "See RFC 5321")
  else if verb = "STARTTLS".toList then handleStartTls o
  else if verb = "AUTH".toList then handleAuth h o rest
  else push (reply 500 "5.5.1" "Command unrecognized")

def handleCommandLine (lineBytes : Bytes) : Handler :=
  if maxCommandLine < lineBytes.length then push (reply 550 "5.5.2" "Line too long")
  else
    let line := utf8Decode lineBytes
    if trim line = [] then push (reply 500 "5.5.1" "Command unrecognized")
    else
      let (verb, rest) := splitVerb h.cases line
      handleVerb h o verb rest

def dsnParams (mail : MailDsn) (perRcpt : List (Text × RcptDsn)) : Option SmtpDsnParams :=
  if mail.ret.isSome || mail.envid.isSome || !perRcpt.isEmpty then
    some { mail with perRcpt := if perRcpt.isEmpty then none else some perRcpt }
  else none

def finishData : Handler := fun e =>
  if e.dataOverflow then
    (resetTransaction e, [reply 552 "5.3.4" "Message size exceeds fixed maximum message size"])
  else
    ({ e with dataChunks := [], dataSize := 0, awaiting := some .deliver },
      [.deliver
        { mailFrom := e.mailFrom.getD []
          heloName := e.heloName
          rcptTo := e.rcptTo
          raw := e.dataChunks.flatten
          authenticatedAs := e.authenticatedAs
          dsn := dsnParams e.mailDsn (Assoc.restrict e.rcptDsn e.rcptTo) }])

/-- The part of an over-long line that is kept: a final `CR` may open the
terminator. -/
def keptTail (buffer : Bytes) : Bytes := if buffer.getLast? = some CR then [CR] else []

/-- `guardDataBuffer` has something to do. -/
def dataBufferFull (e : Engine) : Bool :=
  decide (maxDataLine < e.buffer.length) ||
    decide (o.maxSizeBytes < e.dataSize + e.buffer.length)

def guardDataBuffer (e : Engine) : Engine :=
  if dataBufferFull o e then
    { e with dataOverflow := true, dataChunks := [], dataSize := 0, buffer := keptTail e.buffer }
  else e

def unstuff : Bytes → Bytes
  | [] => []
  | c :: line => if c = DOT then line else c :: line

def storeDataLine (line : Bytes) (e : Engine) : Engine :=
  if e.dataOverflow then e
  else
    let content := unstuff line
    if o.maxSizeBytes < e.dataSize + (content.length + 2) then
      { e with dataOverflow := true, dataChunks := [] }
    else
      { e with
        dataChunks := e.dataChunks ++ [content, crlfBytes]
        dataSize := e.dataSize + (content.length + 2) }

/-- What one pass of the loop took off the buffer. -/
inductive Consumed where
  | nothing
  | command (line : Bytes)
  | authLine (line : Bytes)
  | dataLine (line : Bytes)
  | dataEnd
  | chunk (bytes : Bytes)
  | dropped (bytes kept : Bytes)
  deriving DecidableEq, Repr

/-- One pass of the loop, from `before` to `after`; `again` is false where the
source leaves the loop. -/
structure Turn where
  before : Engine
  after : Engine
  actions : List SmtpAction
  consumed : Consumed
  again : Bool

def indexOfCRLF (buf : Bytes) : Option Nat := Lines.index CR LF buf

def turnAuth (cont : AuthContinuation) (e : Engine) : Turn :=
  match indexOfCRLF e.buffer with
  | none =>
    if maxCommandLine < e.buffer.length then
      ⟨e, { e with authContinuation := none, buffer := [] },
        [reply 501 "5.5.2" "Line too long"], .dropped e.buffer [], false⟩
    else ⟨e, e, [], .nothing, false⟩
  | some i =>
    let line := e.buffer.take i
    let r := handleAuthContinuationLine h cont line { e with buffer := e.buffer.drop (i + 2) }
    ⟨e, r.1, r.2, .authLine line, true⟩

/-- `pumpDataLine`. -/
def turnData (e : Engine) : Turn :=
  match indexOfCRLF e.buffer with
  | none =>
    ⟨e, guardDataBuffer o e, [],
      if dataBufferFull o e then .dropped e.buffer (keptTail e.buffer) else .nothing, false⟩
  | some i =>
    let line := e.buffer.take i
    let rest := { e with buffer := e.buffer.drop (i + 2) }
    if line = [DOT] then
      let r := finishData rest
      ⟨e, r.1, r.2, .dataEnd, true⟩
    else ⟨e, storeDataLine o line rest, [], .dataLine line, true⟩

def finishChunk : Handler := fun e =>
  if e.dataOverflow then
    ({ resetTransaction e with state := .greeted }, [reply 552 "5.3.4" "Message size exceeds limit"])
  else if !e.bdatLast then
    ({ e with state := .rcpt },
      [.reply ("250 2.0.0 ".toList ++ natText e.dataSize ++ " octets received".toList ++ crlf)])
  else finishData e

def chunkBytes (e : Engine) : Bytes := e.buffer.take (min e.bdatRemaining e.buffer.length)

/-- A chunk is read in any case, but kept only while the message is within size. -/
def takeChunk (e : Engine) : Engine :=
  let take := min e.bdatRemaining e.buffer.length
  { e with
    buffer := e.buffer.drop take
    bdatRemaining := roundInt (e.bdatRemaining - take)
    dataChunks := if e.dataOverflow then e.dataChunks else e.dataChunks ++ [chunkBytes e]
    dataSize := if e.dataOverflow then e.dataSize else e.dataSize + take }

/-- `pumpBdat`. -/
def turnBdat (e : Engine) : Turn :=
  if 0 < e.bdatRemaining then
    if e.buffer = [] then ⟨e, e, [], .nothing, false⟩
    else if 0 < (takeChunk e).bdatRemaining then
      ⟨e, takeChunk e, [], .chunk (chunkBytes e), false⟩
    else
      let r := finishChunk (takeChunk e)
      ⟨e, r.1, r.2, .chunk (chunkBytes e), true⟩
  else
    let r := finishChunk e
    ⟨e, r.1, r.2, .chunk [], true⟩

def turnCommand (e : Engine) : Turn :=
  match indexOfCRLF e.buffer with
  | none =>
    if maxCommandLine < e.buffer.length then
      ⟨e, { e with buffer := [] }, [reply 550 "5.5.2" "Line too long"],
        .dropped e.buffer [], false⟩
    else ⟨e, e, [], .nothing, false⟩
  | some i =>
    let line := e.buffer.take i
    let r := handleCommandLine h o line { e with buffer := e.buffer.drop (i + 2) }
    ⟨e, r.1, r.2, .command line, true⟩

def turn (e : Engine) : Turn :=
  match e.authContinuation with
  | some cont => turnAuth h cont e
  | none =>
    match e.state with
    | .data => turnData o e
    | .bdat => turnBdat e
    | _ => turnCommand h o e

def running (e : Engine) : Bool := e.awaiting.isNone && !e.closed

/-- The passes of the loop, at most `fuel` of them. -/
def turns : Nat → Engine → List Turn
  | 0, _ => []
  | fuel + 1, e =>
    if running e then
      let t := turn h o e
      if t.again then t :: turns fuel t.after else [t]
    else []

/-- Every pass that goes round again shortens the buffer or leaves a chunk. -/
def fuel (e : Engine) : Nat := 2 * e.buffer.length + 2

def lastEngine (e : Engine) : List Turn → Engine
  | [] => e
  | t :: ts => lastEngine t.after ts

structure Result where
  engine : Engine
  actions : List SmtpAction
  turns : List Turn

def pump (e : Engine) : Result :=
  if e.pendingOverflow then
    ⟨{ e with pendingOverflow := false, closed := true, buffer := [] },
      [reply 421 "4.7.0" "Too much pipelined data, closing connection", .close], []⟩
  else
    let ts := turns h o (fuel e) e
    ⟨lastEngine e ts, ts.flatMap Turn.actions, ts⟩

def greeting : List SmtpAction := [rawReply ("220 ".toList ++ o.hostname ++ " ESMTP ready".toList)]

def isErrorReply : SmtpAction → Bool
  | .reply ('4' :: _) => true
  | .reply ('5' :: _) => true
  | _ => false

def guardErrors (e : Engine) (actions : List SmtpAction) : Engine × List SmtpAction :=
  if e.closed then (e, actions)
  else
    let e := { e with errorCount := e.errorCount + actions.countP isErrorReply }
    if e.errorCount ≤ maxSmtpErrorsPerSession then (e, actions)
    else
      ({ e with closed := true, buffer := [] },
        actions ++ [reply 421 "4.7.0" "Too many errors, closing connection", .close])

/-- The common end of the public methods: resume the loop, then count errors. -/
def resume (e : Engine) (actions : List SmtpAction) : Result :=
  let r := pump h o e
  let g := guardErrors r.engine (actions ++ r.actions)
  ⟨g.1, g.2, r.turns⟩

def feed (chunk : Bytes) (e : Engine) : Result :=
  if e.closed then ⟨e, [], []⟩
  else if e.awaiting.isSome then
    if maxPipelinePendingBytes < e.buffer.length + chunk.length then
      ⟨{ e with pendingOverflow := true }, [], []⟩
    else ⟨{ e with buffer := e.buffer ++ chunk }, [], []⟩
  else resume h o { e with buffer := e.buffer ++ chunk } []

/-- The end of an answer: the loop's actions are pushed by one call, which throws if they are
too many. -/
def resumeAnswer (e : Engine) (actions : List SmtpAction) : Option Result :=
  if h.argumentLimit < (pump h o e).actions.length then none else some (resume h o e actions)

def rcptResult (outcome : RcptOutcome) (e : Engine) : Option Result :=
  if e.awaiting ≠ some .rcpt then none
  else
    let address := e.pendingRcptAddress.getD []
    let e := { e with pendingRcptAddress := none, awaiting := none }
    match outcome with
    | .ok () =>
      resumeAnswer h o { e with rcptTo := e.rcptTo ++ [address], state := .rcpt }
        [.reply ("250 2.1.5 ".toList ++ address ++ " OK".toList ++ crlf)]
    | .error r => resumeAnswer h o e [refusal r]

def deliveryResult (outcome : DeliverOutcome) (e : Engine) : Option Result :=
  if e.awaiting ≠ some .deliver then none
  else
    let action := match outcome with
      | .ok (some queuedId) => .reply ("250 2.6.0 queued as ".toList ++ queuedId ++ crlf)
      | .ok none => reply 250 "2.6.0" "OK"
      | .error r => refusal r
    resumeAnswer h o (resetTransaction { e with awaiting := none }) [action]

def authResult (ok : Bool) (e : Engine) : Option Result :=
  if e.awaiting ≠ some .auth then none
  else
    let user := e.pendingAuthUser
    let e := { e with pendingAuthUser := none, awaiting := none }
    if ok then
      resumeAnswer h o { e with authenticatedAs := user } [reply 235 "2.7.0" "Authentication successful"]
    else resumeAnswer h o e [credentialsInvalid]

def scramKeysResult (keys : Option ScramStoredKeys) (e : Engine) : Option Result :=
  if e.awaiting ≠ some .scramKeys then none
  else
    let e := { e with awaiting := none }
    match e.authContinuation with
    | some (.scramKeys session) | some (.scramFinal session)
    | some (.scramServerFinal session _) =>
      match session.provideKeys h keys with
      | (session, .send message) =>
        resumeAnswer h o { e with authContinuation := some (.scramFinal session) }
          [rawReply ("334 ".toList ++ base64Encode (utf8Encode message))]
      | (_, step) =>
        let r := scramRejected step e
        resumeAnswer h o r.1 r.2
    | _ => resumeAnswer h o e []

def tlsUpgraded (e : Engine) : Engine :=
  { e with
    isTls := true
    awaiting := none
    state := .init
    mailFrom := none
    rcptTo := []
    pendingRcptAddress := none
    dataChunks := []
    dataSize := 0
    dataOverflow := false
    buffer := []
    pendingOverflow := false
    authenticatedAs := none
    authContinuation := none
    pendingAuthUser := none }

end

end Ionosphere.Smtp
