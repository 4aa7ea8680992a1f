import Ionosphere.Lib.Trial
import Ionosphere.MailAuth.SpfAddress

/-! What all the nested evaluations of one SPF check share: the resolver, the two budgets,
the value of the `p` macro and the explanation that waits for a fail. -/
namespace Ionosphere.MailAuth

open Ionosphere.Js Ionosphere.Lib

/-- An answer of the resolver; what it throws besides `DnsNotFoundError` is a failure. -/
inductive DnsAnswer (α : Type) where
  | records (xs : List α)
  | notFound
  | failed (message : Text)

structure DnsMxRecord where
  exchange : Text
  preference : Nat

structure DnsResolver where
  txt : Text → DnsAnswer Text
  mx : Text → DnsAnswer DnsMxRecord
  a : Text → DnsAnswer Text
  aaaa : Text → DnsAnswer Text
  ptr : Text → DnsAnswer Text

def DnsResolver.address (resolver : DnsResolver) : IpVersion → Text → DnsAnswer Text
  | .v4 => resolver.a
  | .v6 => resolver.aaaa

inductive SpfErrorKind where
  | permerror
  | temperror
  deriving DecidableEq

/-- `SpfEvalError`, and what the resolver threw where nothing reads it; `exhausted` is the end of
the model's own bound on nesting. -/
inductive SpfThrown where
  | evalError (kind : SpfErrorKind) (message : Text)
  | resolverError
  | exhausted
  deriving DecidableEq

/-- `carried` and `queries` are ghosts: the counted terms that were let through, and the
questions put to the resolver. -/
structure EvalCtx where
  lookups : Nat := 0
  voidLookups : Nat := 0
  pMacroValue : Option Text := none
  pendingExplanation : Option Text := none
  carried : Nat := 0
  queries : Nat := 0
  deriving DecidableEq

abbrev SpfM := Trial EvalCtx SpfThrown

def throwPermerror {α : Type} (message : Text) : SpfM α := Trial.fail (.evalError .permerror message)

def throwTemperror {α : Type} (message : Text) : SpfM α := Trial.fail (.evalError .temperror message)

def countLookup : SpfM Unit := do
  Trial.change fun ctx => { ctx with lookups := ctx.lookups + 1 }
  let ctx ← Trial.state
  if 10 < ctx.lookups then throwPermerror "DNS 조회 횟수 한도(10) 초과".toList
  else Trial.change fun ctx => { ctx with carried := ctx.carried + 1 }

def voidLimit : Text := "void lookup 한도(2) 초과".toList

def countVoidLookup : SpfM Unit := do
  Trial.change fun ctx => { ctx with voidLookups := ctx.voidLookups + 1 }
  let ctx ← Trial.state
  if 2 < ctx.voidLookups then throwPermerror voidLimit else pure ()

def countVoidIf (condition : Bool) : SpfM Unit :=
  if condition then countVoidLookup else pure ()

def ask {α : Type} (answer : DnsAnswer α) : SpfM (DnsAnswer α) := do
  Trial.change fun ctx => { ctx with queries := ctx.queries + 1 }
  pure answer

def resolved {α : Type} (answer : DnsAnswer α) : SpfM (List α) := do
  match ← ask answer with
  | .records xs => pure xs
  | _ => Trial.fail .resolverError

def lookupFailed (type name message : Text) : Text :=
  type ++ "(".toList ++ name ++ ") 조회 실패: ".toList ++ message

/-- `/^v=spf1(\s|$)/i`. -/
def isSpfText (t : Text) : Bool :=
  match matchPrefixI "v=spf1".toList t with
  | none => false
  | some [] => true
  | some (c :: _) => isWhiteSpace c

section

variable (resolver : DnsResolver)

def fetchSpfRecord (domain : Text) (countVoidIfEmpty : Bool) : SpfM (Option Text) := do
  match ← ask (resolver.txt domain) with
  | .notFound =>
    countVoidIf countVoidIfEmpty
    pure none
  | .failed message => throwTemperror (lookupFailed "TXT".toList domain message)
  | .records txts =>
    if txts = [] then
      countVoidIf countVoidIfEmpty
      pure none
    else
      match txts.filter isSpfText with
      | [] => pure none
      | [record] => pure (some record)
      | _ => throwPermerror (domain ++ ": v=spf1 레코드가 2개 이상".toList)

def addressType : IpVersion → Text
  | .v4 => "A".toList
  | .v6 => "AAAA".toList

def lookupAddrs (domain : Text) (version : IpVersion) (countVoid : Bool) :
    SpfM (List ParsedIp) := do
  match ← ask (resolver.address version domain) with
  | .notFound =>
    countVoidIf countVoid
    pure []
  | .failed message => throwTemperror (lookupFailed (addressType version) domain message)
  | .records raw =>
    countVoidIf (raw = [] && countVoid)
    pure (raw.filterMap parseIp)

/-- An answer without records is charged inside the `try`, so that running out of the budget
there is reported as a failed query. -/
def safeRecords {α : Type} (type name : Text) (answer : DnsAnswer α) : SpfM (List α) := do
  match ← ask answer with
  | .notFound =>
    countVoidLookup
    pure []
  | .failed message => throwTemperror (lookupFailed type name message)
  | .records [] =>
    Trial.recover countVoidLookup fun _ => throwTemperror (lookupFailed type name voidLimit)
    pure []
  | .records recs => pure recs

def safeMx (domain : Text) : SpfM (List DnsMxRecord) :=
  safeRecords "MX".toList domain (resolver.mx domain)

def safePtr (ip : ParsedIp) : SpfM (List Text) :=
  safeRecords "PTR".toList (presentIp ip) (resolver.ptr (presentIp ip))

end

end Ionosphere.MailAuth
