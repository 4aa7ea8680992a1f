import Ionosphere.MailAuth.SpfContext

/-! The terms of an SPF record: mechanisms with their qualifiers, and modifiers. -/
namespace Ionosphere.MailAuth

open Ionosphere.Js

inductive Qualifier where
  | pass
  | fail
  | softfail
  | neutral
  deriving DecidableEq

/-- A mechanism with what its syntax lets it carry. -/
inductive MechanismType where
  | all
  | ip4 (network : Text) (cidr4 : Nat)
  | ip6 (network : Text) (cidr6 : Nat)
  | a (arg : Option Text) (cidr4 cidr6 : Nat)
  | mx (arg : Option Text) (cidr4 cidr6 : Nat)
  | ptr (arg : Option Text)
  | include (arg : Text)
  | exists (arg : Text)
  deriving DecidableEq

structure Mechanism where
  qualifier : Qualifier
  type : MechanismType
  deriving DecidableEq

def qualifierOf (c : Char) : Option Qualifier :=
  if c = '+' then some .pass
  else if c = '-' then some .fail
  else if c = '~' then some .softfail
  else if c = '?' then some .neutral
  else none

/-- The qualifier in front of a term, `+` where there is none. -/
def splitQualifier : Text → Qualifier × Text
  | [] => (.pass, [])
  | c :: rest =>
    match qualifierOf c with
    | some q => (q, rest)
    | none => (.pass, c :: rest)

/-- `/^name(:|\/|$)/i`, with the characters of `stops`. -/
def opensWith (name stops t : Text) : Bool :=
  match matchPrefixI name t with
  | none => false
  | some [] => true
  | some (c :: _) => c ∈ stops

def isMechanismTerm (term : Text) : Bool :=
  let t := (splitQualifier term).2
  opensWith "all".toList [] t ||
    (matchPrefixI "include:".toList t).isSome || (matchPrefixI "exists:".toList t).isSome ||
    opensWith "a".toList [':', '/'] t || opensWith "mx".toList [':', '/'] t ||
    opensWith "ptr".toList [':'] t ||
    (matchPrefixI "ip4:".toList t).isSome || (matchPrefixI "ip6:".toList t).isSome

/-- `([^/]+)(?:\/(\d{1,limit}))?$`. -/
def parseNetwork (limit width : Nat) (s : Text) : Option (Text × Nat) :=
  match splitFirst '/' s with
  | none => if s = [] then none else some (s, width)
  | some (network, digits) =>
    if network ≠ [] && isDigits limit digits then some (network, digitsValue 10 digits) else none

/-- `(?:\/\/(\d{1,3}))?$`. -/
def parseCidr6 (cidr4 : Nat) : Text → Option (Nat × Nat)
  | [] => some (cidr4, 128)
  | '/' :: '/' :: digits =>
    if isDigits 3 digits then some (cidr4, digitsValue 10 digits) else none
  | _ => none

/-- `(?:\/(\d{1,2}))?(?:\/\/(\d{1,3}))?$`. -/
def parseDualCidr : Text → Option (Nat × Nat)
  | '/' :: c :: rest =>
    if isDigit c then
      let digits := (c :: rest).takeWhile isDigit
      if isDigits 2 digits then parseCidr6 (digitsValue 10 digits) ((c :: rest).dropWhile isDigit)
      else none
    else parseCidr6 32 ('/' :: c :: rest)
  | s => parseCidr6 32 s

def nonEmpty (s : Text) : Option Text := if s = [] then none else some s

/-- `(?::([^/]*))?` and the two prefix lengths. -/
def parseHost (s : Text) : Option (Option Text × Nat × Nat) :=
  let (arg, cidrs) :=
    match s with
    | ':' :: rest => (nonEmpty (rest.takeWhile (· ≠ '/')), rest.dropWhile (· ≠ '/'))
    | _ => (none, s)
  (parseDualCidr cidrs).map fun (cidr4, cidr6) => (arg, cidr4, cidr6)

/-- `(?::(.+))?$`. -/
def parsePtr : Text → Option (Option Text)
  | [] => some none
  | ':' :: arg => (nonEmpty arg).map some
  | _ => none

def parseMechanismType (rest : Text) : Option MechanismType :=
  let attempts : List (Option MechanismType) := [
    if matchPrefixI "all".toList rest = some [] then some .all else none,
    ((matchPrefixI "ip4:".toList rest).bind (parseNetwork 2 32)).map fun (n, c) => .ip4 n c,
    ((matchPrefixI "ip6:".toList rest).bind (parseNetwork 3 128)).map fun (n, c) => .ip6 n c,
    ((matchPrefixI "a".toList rest).bind parseHost).map fun (arg, c4, c6) => .a arg c4 c6,
    ((matchPrefixI "mx".toList rest).bind parseHost).map fun (arg, c4, c6) => .mx arg c4 c6,
    ((matchPrefixI "ptr".toList rest).bind parsePtr).map .ptr,
    ((matchPrefixI "include:".toList rest).bind nonEmpty).map .include,
    ((matchPrefixI "exists:".toList rest).bind nonEmpty).map .exists]
  attempts.findSome? id

def parseMechanism (term : Text) : Option Mechanism :=
  (parseMechanismType (splitQualifier term).2).map (⟨(splitQualifier term).1, ·⟩)

def isNameStart (c : Char) : Bool := ('A' ≤ c && c ≤ 'Z') || ('a' ≤ c && c ≤ 'z')

/-- `/^([A-Za-z][A-Za-z0-9_.\-]*)=(.+)$/`. -/
def parseModifier (term : Text) : Option (Text × Text) :=
  match splitFirst '=' term with
  | none => none
  | some (name, value) =>
    if name.head?.any isNameStart && name.all (fun c => isDomainChar c || c = '.') && value ≠ [] then
      some (name.map asciiLower, value)
    else none

structure SpfRecord where
  mechanisms : List Mechanism := []
  redirectSpec : Option Text := none
  expSpec : Option Text := none
  deriving DecidableEq

def SpfRecord.addTerm (record : SpfRecord) (term : Text) : Except Text SpfRecord :=
  if isMechanismTerm term then
    match parseMechanism term with
    | none => .error ("잘못된 메커니즘 구문: ".toList ++ term)
    | some mech => .ok { record with mechanisms := record.mechanisms ++ [mech] }
  else
    match parseModifier term with
    | none => .error ("알 수 없는 항목: ".toList ++ term)
    | some (name, value) =>
      if name = "redirect".toList then
        if record.redirectSpec.isSome then .error "redirect 모디파이어 중복".toList
        else .ok { record with redirectSpec := some value }
      else if name = "exp".toList then
        if record.expSpec.isSome then .error "exp 모디파이어 중복".toList
        else .ok { record with expSpec := some value }
      else .ok record

def recordTerms (record : Text) : List Text :=
  let body := trim ((trim record).drop 6)
  if body = [] then [] else splitWhite body

def parseSpfRecord (record : Text) : Except Text SpfRecord :=
  (recordTerms record).foldlM SpfRecord.addTerm {}

end Ionosphere.MailAuth
