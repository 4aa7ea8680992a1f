import Ionosphere.Js.Text
import Ionosphere.Lib.Assoc

/-! DMARC records and the walk up the DNS tree to the organisational domain. One evaluation
has one context: its caches and the lookups it has spent. -/
namespace Ionosphere.MailAuth

open Ionosphere.Js Ionosphere.Lib

/-- A TXT lookup of the resolver. -/
inductive TxtAnswer where
  | records (txts : List Text)
  | notFound
  | failed

abbrev Tags := List (Text × Text)

def skipSpace (s : Text) : Text := s.dropWhile isWhiteSpace

/-- `/^\s*v\s*=\s*DMARC1\s*(;|$)/i`. -/
def isDmarcText (t : Text) : Bool :=
  let rest := (matchPrefixI "v".toList (skipSpace t)).bind fun r =>
    (matchPrefixI "=".toList (skipSpace r)).bind fun r =>
      matchPrefixI "dmarc1".toList (skipSpace r)
  match rest with
  | none => false
  | some r =>
    match skipSpace r with
    | [] => true
    | c :: _ => c = ';'

section

variable (u : CaseMap)

def addDmarcTag (tags : Tags) (segment : Text) : Option Tags :=
  let trimmed := trim segment
  if trimmed = [] then some tags
  else
    match splitFirst '=' trimmed with
    | none => none
    | some (before, after) =>
      let name := toLowerCase u (trim before)
      if name = [] then none
      else if (Assoc.get tags name).isSome then some tags
      else some (Assoc.set tags name (trim after))

def parseDmarcTagMap (text : Text) : Option Tags :=
  (text.splitOn ';').foldlM (addDmarcTag u) []

def dmarcTags (txts : List Text) : Option Tags :=
  match txts.filter isDmarcText with
  | [txt] =>
    match parseDmarcTagMap u txt with
    | some tags => if Assoc.get tags "v".toList = some "DMARC1".toList then some tags else none
    | none => none
  | _ => none

/-- `tags?.get("psd")?.toLowerCase() === "y"`. -/
def isPsd (tags : Option Tags) : Bool :=
  (tags.bind fun t => Assoc.get t "psd".toList).map (toLowerCase u) = some "y".toList

inductive DmarcErrorKind where
  | permerror
  | temperror
  deriving DecidableEq

structure DmarcCtx where
  orgCache : List (Text × Text) := []
  tagCache : List (Text × Option Tags) := []
  lookups : Nat := 0

def walkMaxSteps : Nat := 10

def maxDmarcLookups : Nat := 40

def dmarcName (domain : Text) : Text := "_dmarc.".toList ++ domain

variable (txt : Text → TxtAnswer)

def fetchDmarcTags (domain : Text) (ctx : DmarcCtx) :
    Except DmarcErrorKind (Option Tags × DmarcCtx) :=
  match Assoc.get ctx.tagCache domain with
  | some cached => .ok (cached, ctx)
  | none =>
    let lookups := ctx.lookups + 1
    if maxDmarcLookups < lookups then .error .temperror
    else
      let ctx := { ctx with lookups := lookups }
      let remember : Option Tags → Option Tags × DmarcCtx := fun v =>
        (v, { ctx with tagCache := Assoc.set ctx.tagCache domain v })
      match txt (dmarcName domain) with
      | .notFound => .ok (remember none)
      | .failed => .error .temperror
      | .records txts => .ok (remember (dmarcTags u txts))

/-- The steps from `i` on: the domain just below the first public suffix met. -/
def walkUp (labels : List Text) : Nat → Nat → DmarcCtx →
    Except DmarcErrorKind (Option Text × DmarcCtx)
  | 0, _, ctx => .ok (none, ctx)
  | steps + 1, i, ctx =>
    match fetchDmarcTags u txt (join ['.'] (labels.drop i)) ctx with
    | .error kind => .error kind
    | .ok (tags, ctx) =>
      if isPsd u tags then .ok (some (join ['.'] (labels.drop (i - 1))), ctx)
      else walkUp labels steps (i + 1) ctx

/-- Without a public suffix within reach the last two labels are the organisational domain. -/
def computeOrgDomain (domain : Text) (ctx : DmarcCtx) :
    Except DmarcErrorKind (Text × DmarcCtx) :=
  match Assoc.get ctx.orgCache domain with
  | some hit => .ok (hit, ctx)
  | none =>
    let remember : Text → DmarcCtx → Text × DmarcCtx := fun v ctx =>
      (v, { ctx with orgCache := Assoc.set ctx.orgCache domain v })
    let labels := domain.splitOn '.'
    if labels.length ≤ 2 then .ok (remember domain ctx)
    else
      match walkUp u txt labels (min (labels.length - 1) walkMaxSteps) 1 ctx with
      | .error kind => .error kind
      | .ok (some found, ctx) => .ok (remember found ctx)
      | .ok (none, ctx) => .ok (remember (join ['.'] (labels.drop (labels.length - 2))) ctx)

end

end Ionosphere.MailAuth
