import Ionosphere.Js.Text

/-! The SASL response parsers every protocol engine shares: strict base64, PLAIN
and the two OAuth mechanisms. -/
namespace Ionosphere.Core

open Ionosphere.Js

structure Creds where
  user : Text
  pass : Text
  deriving DecidableEq, Repr

inductive OAuthMechanism where
  | xoauth2
  | oauthbearer
  deriving DecidableEq, Repr

def OAuthMechanism.text : OAuthMechanism → Text
  | .xoauth2 => "XOAUTH2".toList
  | .oauthbearer => "OAUTHBEARER".toList

/-- Groups of four digits, the last one possibly padded by one or two `=`. -/
def decodeSaslBase64 (s : Text) : Option Bytes :=
  let digits := s.rdropWhile (· == '=')
  if s.length % 4 = 0 ∧ s.length ≤ digits.length + 2 then
    (digits.mapM base64Value).map base64Bytes
  else none

/-- `authzid NUL authcid NUL passwd`: the password is all that follows the second
`NUL`. -/
def parseSaslPlain (bytes : Bytes) : Option Creds :=
  let afterAuthzid := bytes.dropWhile (· != 0)
  match afterAuthzid with
  | [] => none
  | _ :: rest =>
    match rest.dropWhile (· != 0) with
    | [] => none
    | _ :: passwd =>
      let user := utf8Decode (rest.takeWhile (· != 0))
      if user = [] then none else some ⟨user, utf8Decode passwd⟩

/-- `/^auth=Bearer[ ]+(.+)$/i`, the group trimmed. -/
def bearerField (f : Text) : Option Text :=
  match matchPrefixI "auth=bearer".toList f with
  | none => none
  | some rest =>
    let spaces := rest.takeWhile (· == ' ')
    let token := rest.dropWhile (· == ' ')
    if spaces = [] then none
    -- the last space is given back when nothing else is left for the group
    else if token = [] then if spaces.length = 1 then none else some []
    else if token.any isLineTerminator then none
    else some (trim token)

def extractBearer (fields : List Text) : Option Text := fields.findSome? bearerField

def creds? (user token : Option Text) : Option Creds :=
  match user, token with
  | some u, some t => if u = [] ∨ t = [] then none else some ⟨u, t⟩
  | _, _ => none

def stripPrefix (pre s : Text) : Option Text :=
  if pre.isPrefixOf s then some (s.drop pre.length) else none

def parseXoauth2 (decoded : Text) : Option Creds :=
  let fields := decoded.splitOn '\x01'
  let user := (fields.filterMap (stripPrefix "user=".toList)).getLast?
  creds? user (extractBearer fields)

/-- `s.replace(/=XY/gi, r)` for a two-digit escape `XY`. -/
def replaceEscape (x y r : Char) : Text → Text
  | '=' :: a :: b :: rest =>
    if asciiLower a = x ∧ asciiLower b = y then r :: replaceEscape x y r rest
    else '=' :: replaceEscape x y r (a :: b :: rest)
  | c :: rest => c :: replaceEscape x y r rest
  | [] => []

def decodeGs2 (s : Text) : Text :=
  replaceEscape '3' 'd' '=' (replaceEscape '2' 'c' ',' s)

def parseOauthbearer (decoded : Text) : Option Creds :=
  let fields := decoded.splitOn '\x01'
  let gs2 := fields.headD []
  let user := match (gs2.splitOn ',').findSome? (stripPrefix "a=".toList) with
    | some (c :: cs) => some (decodeGs2 (c :: cs))
    | _ => none
  creds? user (extractBearer fields.tail)

def parseSaslOAuth : OAuthMechanism → Text → Option Creds
  | .xoauth2 => parseXoauth2
  | .oauthbearer => parseOauthbearer

example : decodeSaslBase64 "AGEAYg==".toList = some [0, 97, 0, 98] := by decide
example : parseSaslPlain [0, 97, 0, 98] = some ⟨['a'], ['b']⟩ := by decide
example : parseOauthbearer "n,a=u=2Cv,\x01auth=Bearer t\x01\x01".toList =
    some ⟨['u', ',', 'v'], ['t']⟩ := by decide

end Ionosphere.Core
