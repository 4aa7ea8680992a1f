import Ionosphere.MailAuth.SpfMacro
import Ionosphere.MailAuth.SpfRecord

/-! The evaluation of an SPF record and of the records it leads to. -/
namespace Ionosphere.MailAuth

open Ionosphere.Js Ionosphere.Lib

inductive SpfResultValue where
  | pass
  | fail
  | softfail
  | neutral
  | none
  | temperror
  | permerror
  deriving DecidableEq

def qualifierToResult : Qualifier → SpfResultValue
  | .pass => .pass
  | .fail => .fail
  | .softfail => .softfail
  | .neutral => .neutral

section

variable (u : CaseMap)

def prefixFor (ip : ParsedIp) (cidr4 cidr6 : Nat) : Nat :=
  match ip.version with
  | .v4 => cidr4
  | .v6 => cidr6

def targetDomain (arg : Option Text) (mctx : MacroCtx) : SpfM Text :=
  match arg with
  | some spec => expandDomainSpec spec mctx
  | none => pure mctx.currentDomain

/-- The `ip4` and `ip6` mechanisms differ in the version and in what it allows. -/
def matchNetwork (version : IpVersion) (name : Text) (network : Text) (cidr : Nat)
    (ip : ParsedIp) : SpfM Bool :=
  match (parseIp network).filter fun net => net.version = version with
  | none => throwPermerror ("잘못된 ".toList ++ name ++ " 네트워크: ".toList ++ network)
  | some net =>
    if 8 * version.octets < cidr then
      throwPermerror ("잘못된 ".toList ++ name ++ " prefix: /".toList ++ natText cidr)
    else pure (ip.version = version && ipInCidr ip net cidr)

def matchMx (mctx : MacroCtx) (prefixLen : Nat) : List DnsMxRecord → SpfM Bool
  | [] => pure false
  | mx :: rest => do
    let addrs ← lookupAddrs mctx.resolver mx.exchange mctx.clientIp.version false
    if addrs.any fun a => ipInCidr mctx.clientIp a prefixLen then pure true
    else matchMx mctx prefixLen rest

def isWithin (name domain : Text) : Bool :=
  let lname := dropFinalDot (toLowerCase u name)
  let ldomain := dropFinalDot (toLowerCase u domain)
  lname = ldomain || ('.' :: ldomain).isSuffixOf lname

def matchPtr (mctx : MacroCtx) (domain : Text) : List Text → SpfM Bool
  | [] => pure false
  | name :: names => do
    let addrs ← lookupAddrs mctx.resolver name mctx.clientIp.version false
    if (addrs.any fun a => a.bytes = mctx.clientIp.bytes) && isWithin u name domain then pure true
    else matchPtr mctx domain names

/-- `host` is the evaluation of the record of another domain. -/
def evalMechanism (host : Text → SpfM SpfResultValue) (mech : MechanismType) (mctx : MacroCtx) :
    SpfM Bool :=
  let ip := mctx.clientIp
  match mech with
  | .all => pure true
  | .ip4 network cidr4 => matchNetwork .v4 "ip4".toList network cidr4 ip
  | .ip6 network cidr6 => matchNetwork .v6 "ip6".toList network cidr6 ip
  | .a arg cidr4 cidr6 => do
    countLookup
    let domain ← targetDomain arg mctx
    let addrs ← lookupAddrs mctx.resolver domain ip.version true
    pure (addrs.any fun a => ipInCidr ip a (prefixFor ip cidr4 cidr6))
  | .mx arg cidr4 cidr6 => do
    countLookup
    let domain ← targetDomain arg mctx
    let records ← safeMx mctx.resolver domain
    matchMx mctx (prefixFor ip cidr4 cidr6) (records.take 10)
  | .ptr arg => do
    countLookup
    let domain ← targetDomain arg mctx
    let names ← safePtr mctx.resolver ip
    matchPtr u mctx domain (names.take 10)
  | .exists arg => do
    countLookup
    let domain ← expandDomainSpec arg mctx
    let addrs ← lookupAddrs mctx.resolver domain .v4 true
    pure (addrs ≠ [])
  | .include arg => do
    countLookup
    let domain ← expandDomainSpec arg mctx
    let sub ← host domain
    pure (sub = .pass)

def explainFail (outcome : SpfResultValue) (expSpec : Option Text) (mctx : MacroCtx) : SpfM Unit :=
  match outcome, expSpec with
  | .fail, some spec => tryFetchExplanation spec mctx
  | _, _ => pure ()

/-- The first mechanism that matches decides; `none` when none does. -/
def evalMechanisms (host : Text → SpfM SpfResultValue) (expSpec : Option Text) (mctx : MacroCtx) :
    List Mechanism → SpfM (Option SpfResultValue)
  | [] => pure none
  | mech :: mechs => do
    if ← evalMechanism u host mech.type mctx then
      let outcome := qualifierToResult mech.qualifier
      explainFail outcome expSpec mctx
      pure (some outcome)
    else evalMechanisms host expSpec mctx mechs

def evaluateRecord (host : MacroCtx → Text → SpfM SpfResultValue) (record currentDomain : Text)
    (mb : MacroCtx) : SpfM SpfResultValue := do
  let mctx := { mb with currentDomain }
  match parseSpfRecord record with
  | .error message => throwPermerror message
  | .ok parsed =>
    match ← evalMechanisms u (host mctx) parsed.expSpec mctx parsed.mechanisms with
    | some outcome => pure outcome
    | none =>
      match parsed.redirectSpec with
      | none => pure .neutral
      | some spec =>
        countLookup
        let domain ← expandDomainSpec spec mctx
        host mctx domain

/-- The first argument bounds the nesting of `include` and `redirect`. -/
def checkHostInner : Nat → MacroCtx → Text → (isTop : Bool) → SpfM SpfResultValue
  | 0, _, _, _ => Trial.fail .exhausted
  | nesting + 1, mb, domain, isTop =>
    if isValidDomain domain then do
      match ← fetchSpfRecord mb.resolver domain !isTop with
      | none =>
        if isTop then pure .none else throwPermerror (domain ++ ": SPF 레코드 없음".toList)
      | some record =>
        evaluateRecord u (fun mctx domain => checkHostInner nesting mctx domain false) record domain
          mb
    else if isTop then pure .none
    else throwPermerror ("잘못된 도메인: ".toList ++ domain)

structure SpfInput where
  ip : Text
  helo : Text
  mailFrom : Text

structure SpfResult where
  result : SpfResultValue
  domain : Text
  explanation : Option Text := none
  deriving DecidableEq

structure SpfSender where
  full : Text
  localPart : Text
  domain : Text

/-- The identity that is checked: the HELO name where MAIL FROM is empty or has no `@`. -/
def spfSender (input : SpfInput) : SpfSender :=
  if '@' ∈ input.mailFrom then
    let domain := input.mailFrom.rtakeWhile (· ≠ '@')
    let before := input.mailFrom.take (input.mailFrom.length - domain.length - 1)
    ⟨input.mailFrom, if before = [] then "postmaster".toList else before, domain⟩
  else ⟨"postmaster@".toList ++ input.helo, "postmaster".toList, input.helo⟩

def kindToResult : SpfErrorKind → SpfResultValue
  | .permerror => .permerror
  | .temperror => .temperror

/-- One level for the record of the sender and one for each of the ten counted terms. -/
def nestingLimit : Nat := 11

def macroCtx (input : SpfInput) (resolver : DnsResolver) (now : Nat) (clientIp : ParsedIp) :
    MacroCtx :=
  let sender := spfSender input
  ⟨sender.full, sender.localPart, sender.domain, input.helo, clientIp, sender.domain, resolver, now⟩

def checkSpf (input : SpfInput) (resolver : DnsResolver) (now : Nat) : SpfResult :=
  match parseIp input.ip with
  | none =>
    { result := .permerror
      domain := if input.mailFrom = [] then input.helo else input.mailFrom
      explanation := some ("잘못된 IP 주소: ".toList ++ input.ip) }
  | some clientIp =>
    let senderDomain := (spfSender input).domain
    if isValidDomain senderDomain then
      match checkHostInner u nestingLimit (macroCtx input resolver now clientIp) senderDomain true
        {} with
      | (.ok result, ctx) =>
        if result = .fail then
          { result, domain := senderDomain, explanation := ctx.pendingExplanation }
        else { result, domain := senderDomain }
      | (.error (.evalError kind message), _) =>
        { result := kindToResult kind, domain := senderDomain, explanation := some message }
      | (.error _, _) => { result := .temperror, domain := senderDomain }
    else { result := .none, domain := senderDomain }

end

end Ionosphere.MailAuth
