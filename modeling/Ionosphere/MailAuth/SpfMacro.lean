import Ionosphere.MailAuth.SpfContext

/-! The macros of SPF records: their values, their transformers, and the expansion of domain
names and explanations. -/
namespace Ionosphere.MailAuth

open Ionosphere.Js Ionosphere.Lib

/-- `now` is the clock in seconds. -/
structure MacroCtx where
  senderFull : Text
  senderLocal : Text
  senderDomain : Text
  helo : Text
  clientIp : ParsedIp
  currentDomain : Text
  resolver : DnsResolver
  now : Nat

def unknown : Text := "unknown".toList

/-- `name.replace(/\.$/, "")`. -/
def dropFinalDot (name : Text) : Text := if name.getLast? = some '.' then name.dropLast else name

def sameAddress (ip : ParsedIp) (s : Text) : Bool :=
  match parseIp s with
  | some p => p.bytes = ip.bytes
  | none => false

def confirmName (mctx : MacroCtx) : List Text → SpfM Text
  | [] => pure unknown
  | name :: names => do
    countLookup
    let raw ← resolved (mctx.resolver.address mctx.clientIp.version name)
    if raw.any (sameAddress mctx.clientIp) then pure (dropFinalDot name)
    else confirmName mctx names

/-- The `p` macro: the first name of the client that leads back to it. Whatever goes wrong, the
limit of the budget included, gives `unknown`. -/
def resolvePMacro (mctx : MacroCtx) : SpfM Text :=
  Trial.recover
    (do
      countLookup
      let names ← resolved (mctx.resolver.ptr (presentIp mctx.clientIp))
      confirmName mctx (names.take 10))
    fun _ => pure unknown

def pMacro (mctx : MacroCtx) : SpfM Text := do
  let ctx ← Trial.state
  match ctx.pMacroValue with
  | some value => pure value
  | none =>
    let value ← resolvePMacro mctx
    Trial.change fun ctx => { ctx with pMacroValue := some value }
    pure value

def macroValue (letter : Char) (mctx : MacroCtx) (forExp : Bool) : SpfM (Option Text) :=
  match letter with
  | 's' => pure (some mctx.senderFull)
  | 'l' => pure (some mctx.senderLocal)
  | 'o' => pure (some mctx.senderDomain)
  | 'd' => pure (some mctx.currentDomain)
  | 'i' =>
    match mctx.clientIp.version with
    | .v4 => pure (some (presentIp mctx.clientIp))
    | .v6 => pure (some (nibbleForm mctx.clientIp))
  | 'h' => pure (some mctx.helo)
  | 'v' =>
    match mctx.clientIp.version with
    | .v4 => pure (some "in-addr".toList)
    | .v6 => pure (some "ip6".toList)
  | 'p' => do
    let value ← pMacro mctx
    pure (some value)
  | 'c' => pure (if forExp then some (presentIp mctx.clientIp) else none)
  | 'r' => pure (if forExp then some unknown else none)
  | 't' => pure (if forExp then some (natText mctx.now) else none)
  | _ => pure none

/-- The groups of `MACRO_RE`. -/
structure MacroParts where
  letter : Char
  digits : Text
  reversed : Bool
  delims : Text
  deriving DecidableEq

def isMacroLetter (c : Char) : Bool := asciiLower c ∈ "slodiphcrtv".toList

def isDelimiter (c : Char) : Bool := c ∈ ".-+,/_=".toList

/-- `/^([slodiphcrtvSLODIPHCRTV])(\d*)(r?)([.\-+,/_=]*)$/`. -/
def parseMacro : Text → Option MacroParts
  | [] => none
  | letter :: rest =>
    let digits := rest.takeWhile isDigit
    let (reversed, delims) :=
      match rest.dropWhile isDigit with
      | 'r' :: tail => (true, tail)
      | tail => (false, tail)
    if isMacroLetter letter && delims.all isDelimiter then some ⟨letter, digits, reversed, delims⟩
    else none

def splitByDelims (value delims : Text) : List Text := value.splitOnP (· ∈ delims)

def MacroParts.transform (m : MacroParts) (value : Text) : Text :=
  let parts := splitByDelims value (if m.delims = [] then ['.'] else m.delims)
  let parts := if m.reversed then parts.reverse else parts
  let n := digitsValue 10 m.digits
  let parts := if 0 < n ∧ n < parts.length then parts.drop (parts.length - n) else parts
  join ['.'] parts

def expandMacro (mctx : MacroCtx) (forExp : Bool) (inner : Text) : SpfM (Option Text) :=
  match parseMacro inner with
  | none => pure none
  | some m => do
    match ← macroValue (asciiLower m.letter) mctx forExp with
    | none => pure none
    | some value => pure (some (m.transform value))

/-- Where the loop over a template stands: between two macros, behind a `%`, or behind the
opening brace and the characters after it. -/
inductive MacroScan where
  | plain
  | percent
  | braces (inner : Text)

def expandFrom (mctx : MacroCtx) (forExp : Bool) :
    MacroScan → (out : Text) → Text → SpfM (Option Text)
  | .plain, out, [] => pure (some out)
  | .plain, out, ch :: rest =>
    if ch = '%' then expandFrom mctx forExp .percent out rest
    else expandFrom mctx forExp .plain (out ++ [ch]) rest
  | .percent, _, [] => pure none
  | .percent, out, next :: rest =>
    if next = '%' then expandFrom mctx forExp .plain (out ++ ['%']) rest
    else if next = '_' then expandFrom mctx forExp .plain (out ++ [' ']) rest
    else if next = '-' then expandFrom mctx forExp .plain (out ++ "%20".toList) rest
    else if next = '\x7b' then expandFrom mctx forExp (.braces []) out rest
    else pure none
  | .braces _, _, [] => pure none
  | .braces inner, out, ch :: rest =>
    if ch = '\x7d' then do
      match ← expandMacro mctx forExp inner with
      | none => pure none
      | some value => expandFrom mctx forExp .plain (out ++ value) rest
    else expandFrom mctx forExp (.braces (inner ++ [ch])) out rest

def expandMacros (template : Text) (mctx : MacroCtx) (forExp : Bool) : SpfM (Option Text) :=
  expandFrom mctx forExp .plain [] template

def expandDomainSpec (spec : Text) (mctx : MacroCtx) : SpfM Text := do
  match ← expandMacros spec mctx false with
  | none => throwPermerror ("매크로 확장 실패: ".toList ++ spec)
  | some expanded =>
    let domain := dropFinalDot expanded
    if isValidDomain domain then pure domain
    else throwPermerror ("잘못된 도메인(매크로 확장 후): ".toList ++ domain)

def tryFetchExplanation (expSpec : Text) (mctx : MacroCtx) : SpfM Unit :=
  Trial.recover
    (do
      let domain ← expandDomainSpec expSpec mctx
      match ← resolved (mctx.resolver.txt domain) with
      | [] => pure ()
      | txt :: _ =>
        match ← expandMacros txt mctx true with
        | none => pure ()
        | some expanded => Trial.change fun ctx => { ctx with pendingExplanation := some expanded })
    fun _ => pure ()

end Ionosphere.MailAuth
