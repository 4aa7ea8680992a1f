import Ionosphere.Lib.Assoc
import Ionosphere.Lib.Lines
import Ionosphere.Js.Number
import Ionosphere.MailAuth.Dane
import Ionosphere.Mta.DotStuffing

/-! `sendSmtp`: one session with a server, driven by what the socket reports. A chunk is heard
only while a reply is awaited, and only on the socket the reader was made for. -/
namespace Ionosphere.Mta.Client

open Ionosphere.Js Ionosphere.Lib Ionosphere.MailAuth

/-- What the runtime supplies: case mapping, digests and `JSON.stringify` of a string. -/
structure Host where
  cases : CaseMap
  digests : Digests
  stringify : Text → Text

inductive TlsMode where
  | opportunistic
  | required
  | implicit
  | never
deriving DecidableEq

structure SmtpAuth where
  user : Text
  pass : Text

structure SmtpClientOptions where
  host : Text
  ehloName : Text
  mailFrom : Text
  rcptTo : List Text
  raw : Bytes
  tls : Option TlsMode
  auth : Option SmtpAuth
  dane : Option DaneTlsaSet

structure RcptOutcome where
  code : Nat
  permanent : Bool
  message : Text
deriving DecidableEq

inductive DaneMark where
  | matched
  | mismatch
deriving DecidableEq

structure SmtpClientResult where
  ok : Bool
  code : Nat
  message : Text
  permanent : Bool
  rcptResults : List (Text × RcptOutcome)
  dane : Option DaneMark := none
  tlsUsed : Option Bool := none
deriving DecidableEq

def connectFailure (err : Text) (rcptResults : List (Text × RcptOutcome)) : SmtpClientResult :=
  { ok := false, code := 0, message := err, permanent := false, rcptResults }

def isPermanent (code : Nat) : Bool := 500 ≤ code && code < 600

def isPositive (code : Nat) : Bool := 200 ≤ code && code < 300

def SmtpClientOptions.daneActive (o : SmtpClientOptions) : Bool :=
  match o.dane with
  | none => false
  | some tlsa => hasUsableTlsa tlsa

def SmtpClientOptions.requestedTls (o : SmtpClientOptions) : TlsMode := o.tls.getD .opportunistic

def SmtpClientOptions.tlsMode (o : SmtpClientOptions) : TlsMode :=
  if o.daneActive && (o.requestedTls = .opportunistic || o.requestedTls = .never) then .required
  else o.requestedTls

def isSafeEnvelopeAddress (address : Text) : Bool :=
  address.all fun c => ! ['\r', '\n', Char.ofNat 0, '<', '>', ' '].contains c

def findUnsafeAddress (addresses : List Text) : Option Text :=
  addresses.find? fun a => !isSafeEnvelopeAddress a

def SmtpClientOptions.unsafeAddress (o : SmtpClientOptions) : Option Text :=
  if isSafeEnvelopeAddress o.mailFrom then findUnsafeAddress o.rcptTo else some o.mailFrom

def SmtpClientOptions.needsUtf8 (o : SmtpClientOptions) : Bool :=
  !o.mailFrom.all isAscii || o.rcptTo.any fun r => !r.all isAscii

inductive Channel where
  | clear
  | tls
deriving DecidableEq

/-- A character of the buffer with the channel that brought it. -/
structure Octet where
  char : Char
  on : Channel
deriving DecidableEq

structure ReplyReader where
  socket : Channel
  buf : List Octet
deriving DecidableEq

structure ParsedReply where
  code : Nat
  lines : List Text

/-- A `read` in progress: the code of the first line, the texts, and what was taken for it. -/
structure Reading where
  code : Option Nat
  lines : List Text
  taken : List Octet

def Reading.fresh : Reading := ⟨none, [], []⟩

def maxReplyBytes : Nat := 64 * 1024

/-- `/^(\d{3})([ -])(.*)$/`. -/
def parseLine : Text → Option (Nat × Char × Text)
  | a :: b :: c :: sep :: text =>
    if [a, b, c].all isDigit && (sep = ' ' || sep = '-') && text.all (!isLineTerminator ·) then
      some (digitsValue 10 [a, b, c], sep, text)
    else none
  | _ => none

def ReplyReader.nextLine (r : ReplyReader) : Option (Text × List Octet × ReplyReader) :=
  (Lines.index '\r' '\n' (r.buf.map Octet.char)).map fun idx =>
    ((r.buf.take idx).map Octet.char, r.buf.take (idx + 2), { r with buf := r.buf.drop (idx + 2) })

def parseCaps (h : Host) (ehloLines : List Text) : List Text :=
  ehloLines.tail.filterMap fun line =>
    match (splitWhite (trim line)).headD [] with
    | [] => none
    | token => some (toUpperCase h.cases token)

def parseAuthMechs (h : Host) (ehloLines : List Text) : List Text :=
  ehloLines.tail.flatMap fun line =>
    match splitWhite (trim line) with
    | [] => []
    | token :: mechs =>
      if toUpperCase h.cases token = "AUTH".toList then mechs.map (toUpperCase h.cases) else []

inductive Command where
  | ehlo (name : Text)
  | startTls
  | authPlain (auth : SmtpAuth)
  | authLogin
  | authUser (auth : SmtpAuth)
  | authPass (auth : SmtpAuth)
  | mail (address : Text) (eightBit utf8 : Bool)
  | rcpt (address : Text)
  | data
  | content (raw : Bytes)
  | quit

/-- A write, with the socket and the chain its peer presented. -/
structure Write where
  command : Command
  socket : Channel
  peer : List Certificate

/-- A reply that was read, with the write before it and the characters it was read from. -/
structure Answer where
  write : Option Write
  octets : List Octet

structure Log where
  written : List Write
  answers : List Answer

inductive Phase where
  | banner
  | ehlo
  | startTls
  | handshake
  | ehloTls
  | authPlain
  | authLogin (auth : SmtpAuth)
  | authUser (auth : SmtpAuth)
  | authPass
  | mail
  | rcpt (address : Text) (rest : List Text)
  | data
  | final
  | quit (result : SmtpClientResult)

structure Session where
  phase : Phase
  socket : Channel
  peer : List Certificate
  reader : ReplyReader
  read : Reading
  ehloLines : List Text
  caps : List Text
  rcptResults : List (Text × RcptOutcome)
  acceptedRcpts : List Text
  tlsUsed : Bool
  log : Log

inductive State where
  | connecting
  | live (s : Session)
  | done (result : SmtpClientResult) (log : Log)

def State.log : State → Log
  | .connecting => ⟨[], []⟩
  | .live s => s.log
  | .done _ log => log

def Session.write (s : Session) (c : Command) : Session :=
  { s with log := { s.log with written := s.log.written ++ [⟨c, s.socket, s.peer⟩] } }

/-- Write a command and wait for its reply in the phase `p`. -/
def Session.ask (s : Session) (c : Command) (p : Phase) : State :=
  .live { s.write c with phase := p, read := .fresh }

def Session.finish (s : Session) (r : SmtpClientResult) : State := .done r s.log

/-- `quit`, then the result, whatever becomes of QUIT. -/
def Session.leave (s : Session) (r : SmtpClientResult) : State := s.ask .quit (.quit r)

def Session.refusal (s : Session) (reply : ParsedReply) : SmtpClientResult :=
  { ok := false, code := reply.code, message := join " ".toList reply.lines,
    permanent := isPermanent reply.code, rcptResults := s.rcptResults }

def Session.failure (s : Session) (code : Nat) (message : Text) : SmtpClientResult :=
  { ok := false, code, message, permanent := false, rcptResults := s.rcptResults }

def daneFailure (h : Host) (chain : List Certificate) (tlsa : DaneTlsaSet) (host : Text)
    (rcptResults : List (Text × RcptOutcome)) : Option SmtpClientResult :=
  match checkDane h.digests chain tlsa with
  | .matched _ => none
  | .notApplicable reason =>
    some { ok := false, code := 0, permanent := false, rcptResults,
           message := "DANE 내부 불일치(".toList ++ host ++ "): ".toList ++ reason.toList }
  | .mismatch reason =>
    some { ok := false, code := 0, permanent := false, rcptResults, dane := some .mismatch,
           message := "DANE mismatch (".toList ++ host ++ "): ".toList ++ reason.toList }

/-- `if (daneActive)` around `daneFailure`. -/
def enforceDane (h : Host) (o : SmtpClientOptions) (chain : List Certificate)
    (rcptResults : List (Text × RcptOutcome)) : Option SmtpClientResult :=
  match o.dane with
  | none => none
  | some tlsa =>
    if hasUsableTlsa tlsa then daneFailure h chain tlsa o.host rcptResults else none

section

variable (h : Host) (o : SmtpClientOptions)

def nextRcpt (s : Session) : List Text → State
  | [] =>
    if s.acceptedRcpts = [] then
      s.leave { ok := false, code := 550, message := "all recipients rejected".toList,
                permanent := true, rcptResults := s.rcptResults }
    else s.ask .data .data
  | rcpt :: rest => s.ask (.rcpt rcpt) (.rcpt rcpt rest)

def startMail (s : Session) : State :=
  if o.needsUtf8 && !s.caps.contains "SMTPUTF8".toList then
    s.leave { ok := false, code := 550,
              message := "recipient server does not support SMTPUTF8 (RFC 6531)".toList,
              permanent := true, rcptResults := s.rcptResults }
  else s.ask (.mail o.mailFrom (s.caps.contains "8BITMIME".toList) o.needsUtf8) .mail

def authFailed (s : Session) (reply : ParsedReply) : State :=
  s.leave (s.failure reply.code ("AUTH failed: ".toList ++ join " ".toList reply.lines))

def authDone (s : Session) (reply : ParsedReply) : State :=
  if reply.code ≠ 235 then authFailed s reply else startMail o s

def doAuth (s : Session) (auth : SmtpAuth) : State :=
  let mechs := parseAuthMechs h s.ehloLines
  if mechs = [] then authDone o s ⟨0, ["AUTH not advertised by server".toList]⟩
  else if mechs.contains "PLAIN".toList || !mechs.contains "LOGIN".toList then
    s.ask (.authPlain auth) .authPlain
  else s.ask .authLogin (.authLogin auth)

/-- `if (opts.auth)`: credentials do not go out in clear text unless the mode says `never`. -/
def authenticate (s : Session) : State :=
  match o.auth with
  | none => startMail o s
  | some auth =>
    if s.socket ≠ .tls && o.tlsMode ≠ .never then
      s.leave (s.failure 0
        "AUTH refused on cleartext connection (credentials would be exposed)".toList)
    else doAuth h o s auth

def negotiate (s : Session) : State :=
  if (o.tlsMode = .opportunistic || o.tlsMode = .required) &&
      s.caps.contains "STARTTLS".toList then s.ask .startTls .startTls
  else if o.tlsMode = .required && !s.caps.contains "STARTTLS".toList then
    s.leave (s.failure 0 "STARTTLS required but not advertised".toList)
  else authenticate h o s

def learn (s : Session) (reply : ParsedReply) : Session :=
  { s with ehloLines := reply.lines, caps := parseCaps h reply.lines }

def onReply (s : Session) (reply : ParsedReply) : State :=
  match s.phase with
  | .banner =>
    if !isPositive reply.code then s.finish (s.refusal reply)
    else s.ask (.ehlo o.ehloName) .ehlo
  | .ehlo =>
    if !isPositive reply.code then s.finish (s.refusal reply)
    else negotiate h o (learn h s reply)
  | .startTls =>
    if isPositive reply.code then .live { s with phase := .handshake }
    else if o.tlsMode = .required then
      s.leave (s.failure reply.code ("STARTTLS refused: ".toList ++ join " ".toList reply.lines))
    else authenticate h o s
  | .handshake => .live s
  | .ehloTls =>
    if !isPositive reply.code then s.finish (s.refusal reply)
    else authenticate h o { learn h s reply with tlsUsed := true }
  | .authPlain => authDone o s reply
  | .authLogin auth =>
    if reply.code ≠ 334 then authDone o s reply else s.ask (.authUser auth) (.authUser auth)
  | .authUser auth =>
    if reply.code ≠ 334 then authDone o s reply else s.ask (.authPass auth) .authPass
  | .authPass => authDone o s reply
  | .mail =>
    if !isPositive reply.code then s.leave (s.refusal reply) else nextRcpt s o.rcptTo
  | .rcpt address rest =>
    let outcome := ⟨reply.code, isPermanent reply.code, join " ".toList reply.lines⟩
    let s := { s with rcptResults := Assoc.set s.rcptResults address outcome }
    if isPositive reply.code then
      nextRcpt { s with acceptedRcpts := s.acceptedRcpts ++ [address] } rest
    else nextRcpt s rest
  | .data =>
    if reply.code ≠ 354 then s.leave (s.refusal reply) else s.ask (.content o.raw) .final
  | .final =>
    s.leave { s.refusal reply with
              ok := isPositive reply.code
              dane := if o.daneActive then some .matched else none
              tlsUsed := some s.tlsUsed }
  | .quit result => s.finish result

/-- A rejected read: QUIT is given up, anything else ends as a connection failure. -/
def onReject (s : Session) (err : Text) : State :=
  match s.phase with
  | .quit result => s.finish result
  | _ => s.finish (connectFailure err s.rcptResults)

def Session.awaits (s : Session) : Bool :=
  match s.phase with
  | .handshake => false
  | _ => true

def onLine (s : Session) (line : Text) (octets : List Octet) : State :=
  match parseLine line with
  | none => onReject s ("malformed SMTP reply line: ".toList ++ h.stringify line)
  | some (lineCode, sep, text) =>
    let code := s.read.code.getD lineCode
    let lines := s.read.lines ++ [text]
    let taken := s.read.taken ++ octets
    if sep = ' ' then
      let answer : Answer := ⟨s.log.written.getLast?, taken⟩
      onReply h o { s with log := { s.log with answers := s.log.answers ++ [answer] } } ⟨code, lines⟩
    else .live { s with read := ⟨some code, lines, taken⟩ }

/-- `tryParse` of this read and of the reads that follow it. -/
def tryParse : Nat → State → State
  | 0, st => st
  | n + 1, .live s =>
    if s.awaits then
      match s.reader.nextLine with
      | none => .live s
      | some (line, octets, reader) => tryParse n (onLine h o { s with reader } line octets)
    else .live s
  | _ + 1, st => st

def tooLarge : Text :=
  "SMTP reply too large (> 65536 bytes) — 상대가 응답을 끝내지 않는다".toList

def onData (s : Session) (channel : Channel) (chunk : Bytes) : State :=
  if s.awaits && channel = s.reader.socket then
    let octets := (latin1Decode chunk).map fun c => (⟨c, channel⟩ : Octet)
    let s := { s with reader := { s.reader with buf := s.reader.buf ++ octets } }
    if maxReplyBytes < s.reader.buf.length then onReject s tooLarge
    else tryParse h o s.reader.buf.length (.live s)
  else .live s

inductive Event where
  /-- The connection stands; a TLS one with the chain of its peer. -/
  | connected (chain : List Certificate)
  | connectFailed (err : Text)
  | data (channel : Channel) (chunk : Bytes)
  | secured (chain : List Certificate)
  | handshakeFailed (err : Text)
  /-- An error of the socket, its end or a timeout. -/
  | failed (err : Text)

def opened (chain : List Certificate) : Session :=
  let socket : Channel := if o.tlsMode = .implicit then .tls else .clear
  { phase := .banner, socket, peer := if o.tlsMode = .implicit then chain else [],
    reader := ⟨socket, []⟩, read := .fresh, ehloLines := [], caps := [], rcptResults := [],
    acceptedRcpts := [], tlsUsed := false, log := ⟨[], []⟩ }

def onConnected (chain : List Certificate) : State :=
  match if o.tlsMode = .implicit then enforceDane h o chain [] else none with
  | some fail => .done fail ⟨[], []⟩
  | none => .live (opened o chain)

def upgraded (s : Session) (chain : List Certificate) : Session :=
  { s with socket := .tls, peer := chain, reader := ⟨.tls, []⟩ }

def onSecured (s : Session) (chain : List Certificate) : State :=
  match s.phase with
  | .handshake =>
    match enforceDane h o chain s.rcptResults with
    | some fail => s.finish fail
    | none => (upgraded s chain).ask (.ehlo o.ehloName) .ehloTls
  | _ => .live s

def step : Event → State → State
  | .connected chain, .connecting => onConnected h o chain
  | .connectFailed err, .connecting => .done (connectFailure err []) ⟨[], []⟩
  | .data channel chunk, .live s => onData h o s channel chunk
  | .secured chain, .live s => onSecured h o s chain
  | .handshakeFailed err, .live s =>
    match s.phase with
    | .handshake => s.finish (connectFailure err s.rcptResults)
    | _ => .live s
  | .failed err, .live s => if s.awaits then onReject s err else .live s
  | _, st => st

def start : State :=
  match o.unsafeAddress with
  | none => .connecting
  | some address =>
    .done { ok := false, code := 550,
            message := "unsafe envelope address (CR/LF injection guard): ".toList ++
              h.stringify address,
            permanent := true, rcptResults := [] } ⟨[], []⟩

def run (es : List Event) : State := es.foldl (fun st e => step h o e st) (start h o)

end

end Ionosphere.Mta.Client
