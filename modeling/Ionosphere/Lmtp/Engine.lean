import Ionosphere.Core.Limits
import Ionosphere.Js.Text
import Ionosphere.Lib.Lines
import Mathlib.Algebra.Ring.Nat

/-! The LMTP engine: bytes in, actions out, no sockets. The source keeps what it has read as a
latin1 string, which is a list of bytes here; the lines of a message go out as the bytes they
came in. A verified recipient and a delivery stop the loop until the backend answers. A public
method the source refuses by an exception returns `none`. -/
namespace Ionosphere.Lmtp

open Ionosphere.Js Ionosphere.Core Ionosphere.Lib

local instance : Coe String Text := ⟨String.toList⟩

def CR : UInt8 := 0x0d
def LF : UInt8 := 0x0a
def DOT : UInt8 := 0x2e
def crlf : Bytes := [CR, LF]

/-- What the backend says of one recipient. -/
structure LmtpDelivery where
  rcpt : Text
  ok : Bool
  code : Nat
  enhanced : Option Text
  message : Text
  deriving DecidableEq

structure LmtpDeliverEnv where
  mailFrom : Text
  lhloName : Text
  clientIp : Text
  rcptTo : List Text
  raw : Bytes
  deriving DecidableEq

inductive LmtpAction where
  | reply (text : Text)
  | verifyRcpt (rcpt : Text)
  | deliver (env : LmtpDeliverEnv)
  | close
  deriving DecidableEq

inductive RcptOutcome where
  | accepted
  | refused (code : Nat) (enhanced message : Text)
  deriving DecidableEq

structure Options where
  hostname : Text
  clientIp : Text := "127.0.0.1"
  maxSizeBytes : Nat := maxMessageBytes

/-- What an engine is built over. -/
structure Setup where
  cases : CaseMap
  options : Options

inductive Awaiting where
  | rcpt
  | deliver
  deriving DecidableEq

/-- The mutable fields of `LmtpEngine`. -/
structure Engine where
  buffer : Bytes := []
  greeted : Bool := false
  lhloName : Text := []
  mailFrom : Option Text := none
  rcptTo : List Text := []
  pendingRcpt : Option Text := none
  inData : Bool := false
  dataLines : List Bytes := []
  dataOverflow : Bool := false
  awaiting : Option Awaiting := none
  closed : Bool := false
  rcptCount : Nat := 0
  errorCount : Nat := 0
  deriving DecidableEq

abbrev Handler := Engine → Engine × List LmtpAction

/-- The address between `<` and `>`. -/
def extractPath (rest : Text) : Option Text :=
  match splitFirst '<' rest with
  | none => none
  | some (_, tail) => (splitFirst '>' tail).map fun p => trim p.1

/-- The address after `word:`. -/
def pathAfter (word : Text) (rest : Text) : Option Text :=
  match matchPrefixI (word ++ [':']) rest with
  | none => none
  | some path => extractPath path

def resetTransaction (e : Engine) : Engine :=
  { e with
    mailFrom := none
    rcptTo := []
    pendingRcpt := none
    inData := false
    dataLines := []
    dataOverflow := false }

section

variable (s : Setup)

def cmdLhlo (rest : Text) : Handler := fun e =>
  if trim rest = [] then (e, [.reply "501 5.5.4 LHLO requires domain"])
  else
    (resetTransaction { e with lhloName := trim rest, greeted := true },
      [.reply ("250-" ++ s.options.hostname), .reply "250-PIPELINING",
        .reply "250-ENHANCEDSTATUSCODES", .reply "250-8BITMIME",
        .reply ("250 SIZE " ++ natText s.options.maxSizeBytes)])

def cmdMail (rest : Text) : Handler := fun e =>
  if !e.greeted then (e, [.reply "503 5.5.1 send LHLO first"])
  else if e.mailFrom.isSome then (e, [.reply "503 5.5.1 nested MAIL command"])
  else
    match pathAfter "from" rest with
    | none => (e, [.reply "501 5.5.4 syntax: MAIL FROM:<addr>"])
    | some addr => ({ e with mailFrom := some addr }, [.reply "250 2.1.0 OK"])

def cmdRcpt (rest : Text) : Handler := fun e =>
  if e.mailFrom.isNone then (e, [.reply "503 5.5.1 need MAIL before RCPT"])
  else
    match pathAfter "to" rest with
    | none | some [] => (e, [.reply "501 5.5.4 syntax: RCPT TO:<addr>"])
    | some addr =>
      if maxRcptPerSession ≤ e.rcptCount then (e, [.reply "452 4.5.3 too many recipients"])
      else
        ({ e with
            rcptCount := e.rcptCount + 1
            pendingRcpt := some addr
            awaiting := some .rcpt }, [.verifyRcpt addr])

def cmdData : Handler := fun e =>
  if e.mailFrom.isNone then (e, [.reply "503 5.5.1 need MAIL first"])
  else if e.rcptTo = [] then (e, [.reply "503 5.5.1 need RCPT first"])
  else
    ({ e with inData := true, dataLines := [], dataOverflow := false },
      [.reply "354 end data with <CR><LF>.<CR><LF>"])

def cmdQuit : Handler := fun e =>
  ({ e with closed := true },
    [.reply ("221 2.0.0 " ++ s.options.hostname ++ " closing"), .close])

def splitCommand (line : Text) : Text × Text :=
  match splitFirst ' ' line with
  | none => (toUpperCase s.cases line, [])
  | some (verb, rest) => (toUpperCase s.cases verb, rest)

def handleVerb (verb rest : Text) : Handler :=
  if verb = "LHLO".toList then cmdLhlo s rest
  else if verb = "HELO".toList ∨ verb = "EHLO".toList then fun e =>
    (e, [.reply "500 5.5.1 LMTP requires LHLO"])
  else if verb = "MAIL".toList then cmdMail rest
  else if verb = "RCPT".toList then cmdRcpt rest
  else if verb = "DATA".toList then cmdData
  else if verb = "RSET".toList then fun e => (resetTransaction e, [.reply "250 2.0.0 OK"])
  else if verb = "NOOP".toList then fun e => (e, [.reply "250 2.0.0 OK"])
  else if verb = "QUIT".toList then cmdQuit s
  else fun e => (e, [.reply "500 5.5.1 command not recognized"])

def handleCommand (line : Bytes) : Handler :=
  let p := splitCommand s (latin1Decode line)
  handleVerb s p.1 p.2

/-- A line of content as the engine stores it: of two dots at its start one is removed. -/
def unstuff (line : Bytes) : Bytes := if [DOT, DOT] <+: line then line.drop 1 else line

def dataSize (lines : List Bytes) : Nat := (lines.map fun l => l.length + 2).sum

def rawOf (lines : List Bytes) : Bytes := lines.flatMap fun l => l ++ crlf

def deliverEnv (e : Engine) : LmtpDeliverEnv :=
  { mailFrom := e.mailFrom.getD []
    lhloName := e.lhloName
    clientIp := s.options.clientIp
    rcptTo := e.rcptTo
    raw := rawOf e.dataLines }

def handleDataLine (line : Bytes) : Handler := fun e =>
  if line = [DOT] then
    if e.dataOverflow then (resetTransaction e, [.reply "552 5.3.4 message too large"])
    else
      ({ e with inData := false, awaiting := some .deliver }, [.deliver (deliverEnv s e)])
  else
    let lines := e.dataLines ++ [unstuff line]
    ({ e with
        dataLines := lines
        dataOverflow := e.dataOverflow || decide (s.options.maxSizeBytes < dataSize lines) }, [])

def handleInput (line : Bytes) : Handler := fun e =>
  if e.inData then handleDataLine s line e else handleCommand s line e

def guardLine : Handler := fun e =>
  if maxCommandLine < e.buffer.length then
    ({ e with buffer := [] }, [.reply "500 5.5.2 line too long"])
  else (e, [])

/-- Each round but the last takes a line off the buffer, so its length bounds their number. -/
def pumpLoop : Nat → Handler
  | 0, e => (e, [])
  | fuel + 1, e =>
    if e.awaiting.isSome || e.closed then (e, [])
    else
      match Lines.cut CR LF e.buffer with
      | none => guardLine e
      | some (line, rest) =>
        let r := handleInput s line { e with buffer := rest }
        let q := pumpLoop fuel r.1
        (q.1, r.2 ++ q.2)

def pump : Handler := fun e => pumpLoop s (e.buffer.length + 1) e

def greeting : List LmtpAction := [.reply ("220 " ++ s.options.hostname ++ " LMTP ready")]

def isErrorReply : LmtpAction → Bool
  | .reply ('4' :: _) | .reply ('5' :: _) => true
  | _ => false

def guardErrors (errors : Nat) : Handler := fun e =>
  if e.closed then (e, [])
  else if e.errorCount + errors ≤ maxSmtpErrorsPerSession then
    ({ e with errorCount := e.errorCount + errors }, [])
  else
    ({ e with errorCount := e.errorCount + errors, closed := true, buffer := [] },
      [.reply "421 4.7.0 too many errors, closing connection", .close])

/-- While an answer is awaited nothing is taken off the buffer. -/
def guardPending : Handler := fun e =>
  if !e.closed && e.awaiting.isSome && decide (maxPipelinePendingBytes < e.buffer.length) then
    ({ e with buffer := [], closed := true },
      [.reply "421 4.7.0 too much pipelined data, closing connection", .close])
  else (e, [])

def andThen (f g : Handler) : Handler := fun e =>
  let r := f e
  let q := g r.1
  (q.1, r.2 ++ q.2)

def guarded (f : Handler) : Handler := fun e =>
  andThen f (guardErrors ((f e).2.countP isErrorReply)) e

def feed (chunk : Bytes) : Handler := fun e =>
  if e.closed then (e, [])
  else guarded (andThen (pump s) guardPending) { e with buffer := e.buffer ++ chunk }

def rcptGiven (outcome : RcptOutcome) (rcpt : Text) : Handler := fun e =>
  let e := { e with pendingRcpt := none, awaiting := none }
  match outcome with
  | .accepted => ({ e with rcptTo := e.rcptTo ++ [rcpt] }, [.reply "250 2.1.5 OK"])
  | .refused code enhanced message =>
    (e, [.reply (natText code ++ " " ++ enhanced ++ " " ++ message)])

def rcptResult (outcome : RcptOutcome) (e : Engine) : Option (Engine × List LmtpAction) :=
  match e.awaiting, e.pendingRcpt with
  | some .rcpt, some rcpt => some (guarded (andThen (rcptGiven outcome rcpt) (pump s)) e)
  | _, _ => none

def deliveryReply (results : List LmtpDelivery) (rcpt : Text) : LmtpAction :=
  match results.find? fun r => r.rcpt = rcpt with
  | some r =>
    .reply (natText r.code ++ " " ++ r.enhanced.getD (if r.ok then "2.0.0" else "5.0.0") ++ " " ++
      r.message)
  | none => .reply "451 4.3.0 no delivery result"

def deliveryGiven (results : List LmtpDelivery) : Handler := fun e =>
  (resetTransaction { e with awaiting := none }, e.rcptTo.map (deliveryReply results))

def deliverResult (results : List LmtpDelivery) (e : Engine) :
    Option (Engine × List LmtpAction) :=
  if e.awaiting = some .deliver then some (guarded (andThen (deliveryGiven results) (pump s)) e)
  else none

inductive Call where
  | greeting
  | feed (chunk : Bytes)
  | rcptResult (outcome : RcptOutcome)
  | deliverResult (results : List LmtpDelivery)

def step (c : Call) (e : Engine) : Option (Engine × List LmtpAction) :=
  match c with
  | .greeting => some (e, greeting s)
  | .feed chunk => some (feed s chunk e)
  | .rcptResult outcome => rcptResult s outcome e
  | .deliverResult results => deliverResult s results e

def run (e : Engine) : List Call → Option (Engine × List (List LmtpAction))
  | [] => some (e, [])
  | c :: cs =>
    match step s c e with
    | none => none
    | some (e', acts) => (run e' cs).map fun p => (p.1, acts :: p.2)

end

end Ionosphere.Lmtp
