import Ionosphere.Js.Number
import Ionosphere.Lib.Assoc

/-! The argument parsers of MAIL and RCPT, with the DSN extension's parameters. -/
namespace Ionosphere.Smtp

open Ionosphere.Js Ionosphere.Lib

/-- A refusal: code, enhanced code and message of the reply. -/
structure ParamSyntaxError where
  code : Nat
  enhanced : Text
  message : Text
  deriving DecidableEq, Repr

def syntaxError (code : Nat) (enhanced message : String) : ParamSyntaxError :=
  ⟨code, enhanced.toList, message.toList⟩

inductive Ret where
  | full
  | hdrs
  deriving DecidableEq, Repr

inductive Body where
  | eightBitMime
  | sevenBit
  deriving DecidableEq, Repr

structure ParsedMailFrom where
  address : Text
  size : Option Nat := none
  body : Option Body := none
  smtputf8 : Bool := false
  ret : Option Ret := none
  envid : Option Text := none
  deriving DecidableEq, Repr

structure ParsedRcptTo where
  address : Text
  notify : Option Text := none
  orcpt : Option Text := none
  deriving DecidableEq, Repr

def splitVerb (u : CaseMap) (line : Text) : Text × Text :=
  match splitFirst ' ' line with
  | none => (toUpperCase u line, [])
  | some (verb, rest) => (toUpperCase u verb, trim rest)

def splitParam (token : Text) : Text × Option Text :=
  match splitFirst '=' token with
  | none => (token, none)
  | some (k, v) => (k, some v)

/-- `xtext`: `+XX` is a byte in hexadecimal; control characters are refused. -/
def decodeXtext : Text → Option Text
  | [] => some []
  | '+' :: a :: b :: rest =>
    if isHexDigit a && isHexDigit b then
      let code := digitValue a * 16 + digitValue b
      if code < 0x20 || code == 0x7f then none
      else (decodeXtext rest).map (Char.ofNat code :: ·)
    else none
  | '+' :: _ => none
  | c :: rest =>
    if c.toNat < 0x21 || 0x7e < c.toNat || c == '=' then none
    else (decodeXtext rest).map (c :: ·)

/-- `/^word:\s*<([^>]*)>\s*(.*)$/i`: the two groups. -/
def matchPath (word : Text) (rest : Text) : Option (Text × Text) :=
  match matchPrefixI (word ++ [':']) rest with
  | none => none
  | some r =>
    match trimStart r with
    | '<' :: r =>
      match splitFirst '>' r with
      | none => none
      | some (address, tail) =>
        let params := trimStart tail
        if params.any isLineTerminator then none else some (address, params)
    | _ => none

def mailParam (u : CaseMap) (parsed : ParsedMailFrom) (token : Text) :
    Except ParamSyntaxError ParsedMailFrom :=
  let (rawKey, rawVal) := splitParam token
  let key := toUpperCase u rawKey
  if key = "SIZE".toList then
    match rawVal with
    | none => .error (syntaxError 501 "5.5.4" "Invalid SIZE parameter")
    | some v =>
      let n := number v
      if !n.isInteger || n.isNegative then
        .error (syntaxError 501 "5.5.4" "Invalid SIZE parameter")
      else .ok { parsed with size := some n.toNat }
  else if key = "BODY".toList then
    let v := toUpperCase u (rawVal.getD [])
    if v = "8BITMIME".toList then .ok { parsed with body := some .eightBitMime }
    else if v = "7BIT".toList then .ok { parsed with body := some .sevenBit }
    else .error (syntaxError 501 "5.5.4" "Invalid BODY parameter")
  else if key = "SMTPUTF8".toList then .ok { parsed with smtputf8 := true }
  else if key = "RET".toList then
    let v := toUpperCase u (rawVal.getD [])
    if v = "FULL".toList then .ok { parsed with ret := some .full }
    else if v = "HDRS".toList then .ok { parsed with ret := some .hdrs }
    else .error (syntaxError 501 "5.5.4" "Invalid RET parameter")
  else if key = "ENVID".toList then
    match rawVal.bind decodeXtext with
    | none => .error (syntaxError 501 "5.5.4" "Invalid ENVID parameter")
    | some v =>
      if v.length = 0 ∨ 100 < v.length then
        .error (syntaxError 501 "5.5.4" "Invalid ENVID parameter")
      else .ok { parsed with envid := some v }
  else .error ⟨504, "5.5.4".toList, "Unrecognized MAIL FROM parameter: ".toList ++ key⟩

def parseMailFromArgs (u : CaseMap) (rest : Text) : Except ParamSyntaxError ParsedMailFrom :=
  match matchPath "from".toList rest with
  | none => .error (syntaxError 501 "5.5.4" "Syntax: MAIL FROM:<address> [params]")
  | some (address, params) =>
    let paramsPart := trim params
    if paramsPart = [] then .ok { address }
    else (splitWhite paramsPart).foldlM (mailParam u) { address }

def notifyValues : List Text :=
  ["NEVER".toList, "SUCCESS".toList, "FAILURE".toList, "DELAY".toList]

def rcptParam (u : CaseMap) (value : ParsedRcptTo) (token : Text) :
    Except ParamSyntaxError ParsedRcptTo :=
  let (rawKey, rawVal) := splitParam token
  let key := toUpperCase u rawKey
  if key = "NOTIFY".toList then
    let parts := ((toUpperCase u (rawVal.getD [])).splitOn ',').filter (· ≠ [])
    if parts = [] then .error (syntaxError 501 "5.5.4" "Invalid NOTIFY parameter")
    else if parts.any (· ∉ notifyValues) then
      .error (syntaxError 501 "5.5.4" "Invalid NOTIFY parameter")
    else if "NEVER".toList ∈ parts ∧ 1 < parts.length then
      .error (syntaxError 501 "5.5.4" "NOTIFY=NEVER cannot be combined")
    else .ok { value with notify := some (join [','] parts.eraseDups) }
  else if key = "ORCPT".toList then
    match splitFirst ';' (rawVal.getD []) with
    | none => .error (syntaxError 501 "5.5.4" "Invalid ORCPT parameter")
    | some (addrType, encoded) =>
      if addrType = [] then .error (syntaxError 501 "5.5.4" "Invalid ORCPT parameter")
      else
        match decodeXtext encoded with
        | none => .error (syntaxError 501 "5.5.4" "Invalid ORCPT parameter")
        | some decoded =>
          if decoded.length = 0 ∨ 300 < decoded.length then
            .error (syntaxError 501 "5.5.4" "Invalid ORCPT parameter")
          else .ok { value with orcpt := some (toLowerCase u addrType ++ ";".toList ++ decoded) }
  else .error ⟨504, "5.5.4".toList, "Unrecognized RCPT TO parameter: ".toList ++ key⟩

def parseRcptToArgs (u : CaseMap) (rest : Text) : Except ParamSyntaxError ParsedRcptTo :=
  match matchPath "to".toList rest with
  | none => .error (syntaxError 501 "5.5.4" "Syntax: RCPT TO:<address> [params]")
  | some (address, params) =>
    if address = [] then .error (syntaxError 501 "5.1.3" "Bad recipient address syntax")
    else
      let paramsPart := trim params
      if paramsPart = [] then .ok { address }
      else (splitWhite paramsPart).foldlM (rcptParam u) { address }

end Ionosphere.Smtp
