import Ionosphere.Core.Sasl
import Ionosphere.Lib.Assoc

/-! SCRAM-SHA-256, the server side: message parsing, the check of the client's
proof and the session state machine the engines drive line by line. The hash
functions and the source of nonces are the host's. -/
namespace Ionosphere.Core

open Ionosphere.Js Ionosphere.Lib

/-- What the engines take from the host: Unicode case data, SHA-256 and HMAC, the
`i`-th random nonce, and how many arguments a call may have; a call that spreads a longer
array throws. -/
structure Host where
  cases : CaseMap
  sha256 : Bytes → Bytes
  hmac : Bytes → Bytes → Bytes
  serverNonce : Nat → Text
  argumentLimit : Nat := 120000

def scramDefaultIterations : Nat := 100000

def scramKeyLen : Nat := 32

structure ClientFirst where
  gs2Header : Text
  bare : Text
  username : Text
  clientNonce : Text
  deriving DecidableEq, Repr

/-- `v.replace(/=2C/g, ",")` and its like: the escape's case counts. -/
def replaceEscapeExact (x y r : Char) : Text → Text
  | '=' :: a :: b :: rest =>
    if a = x ∧ b = y then r :: replaceEscapeExact x y r rest
    else '=' :: replaceEscapeExact x y r (a :: b :: rest)
  | c :: rest => c :: replaceEscapeExact x y r rest
  | [] => []

/-- Every `=` starts `=2C` or `=3D`. -/
def saslNameOk : Text → Bool
  | [] => true
  | '=' :: rest => ("2C".toList.isPrefixOf rest || "3D".toList.isPrefixOf rest) && saslNameOk rest
  | _ :: rest => saslNameOk rest

def unescapeName (v : Text) : Option Text :=
  if saslNameOk v then
    some (replaceEscapeExact '3' 'D' '=' (replaceEscapeExact '2' 'C' ',' v))
  else none

/-- `k=v` parts separated by commas; the first value of a key counts. -/
def scramAttrs (bare : Text) : Option (List (Text × Text)) :=
  (bare.splitOn ',').foldlM (fun attrs part =>
    match splitFirst '=' part with
    | none => none
    | some (k, v) =>
      if k = [] then none
      else if (Assoc.get attrs k).isSome then some attrs
      else some (Assoc.set attrs k v)) []

def isNonceChar (c : Char) : Bool :=
  let n := c.toNat
  (0x21 ≤ n && n ≤ 0x2b) || (0x2d ≤ n && n ≤ 0x7e)

/-- The flags `n` and `y` only: a client that asks for channel binding is refused. -/
def parseClientFirst (message : Text) : Option ClientFirst :=
  match splitFirst ',' message with
  | none => none
  | some (flag, afterFlag) =>
    if flag = ['n'] ∨ flag = ['y'] then
      match splitFirst ',' afterFlag with
      | none => none
      | some (authzid, bare) =>
        match scramAttrs bare with
        | none => none
        | some attrs =>
          match Assoc.get attrs ['n'], Assoc.get attrs ['r'] with
          | some rawUser, some nonce =>
            if nonce = [] then none
            else
              match unescapeName rawUser with
              | none => none
              | some username =>
                if nonce.all isNonceChar then
                  some ⟨flag ++ ",".toList ++ authzid ++ ",".toList, bare, username, nonce⟩
                else none
          | _, _ => none
    else none

structure ScramStoredKeys where
  iterations : Nat
  salt : Bytes
  storedKey : Bytes
  serverKey : Bytes
  deriving DecidableEq, Repr

def buildServerFirst (clientNonce serverNonce : Text) (salt : Bytes) (iterations : Nat) : Text :=
  "r=".toList ++ clientNonce ++ serverNonce ++ ",s=".toList ++ base64Encode salt ++
    ",i=".toList ++ natText iterations

/-- The text before the last occurrence of `pat` and the text after it. -/
def splitLast (pat : Text) (s : Text) : Option (Text × Text) :=
  match s with
  | [] => none
  | c :: cs =>
    match splitLast pat cs with
    | some (a, b) => some (c :: a, b)
    | none => if pat.isPrefixOf (c :: cs) then some ([], (c :: cs).drop pat.length) else none

/-- The low bytes of the UTF-16 units. -/
def lowBytes (s : Text) : Text :=
  s.flatMap fun c =>
    if c.toNat < 0x10000 then [Char.ofNat (c.toNat % 256)]
    else [Char.ofNat ((c.toNat - 0x10000) / 1024 % 256), Char.ofNat (c.toNat % 256)]

/-- `Buffer.from(s, "base64")`: both alphabets, other characters skipped, nothing
after the first `=`. A unit counts as its low byte. -/
def base64Lenient (s : Text) : Bytes :=
  let value (c : Char) : Option Nat :=
    if c = '-' then some 62 else if c = '_' then some 63 else base64Value c
  base64Bytes (((lowBytes s).takeWhile (· != '=')).filterMap value)

def xorBytes (a b : Bytes) : Bytes :=
  (List.range scramKeyLen).map fun i => (a.getD i 0) ^^^ (b.getD i 0)

/-- The server-final message when the proof holds. Stored keys are digests of
`scramKeyLen` bytes, the length `timingSafeEqual` insists on. -/
def verifyClientFinal (h : Host) (clientFirstBare serverFirst clientFinal expectedNonce
    gs2Header : Text) (storedKey serverKey : Bytes) : Option Text :=
  match splitLast ",p=".toList clientFinal with
  | none => none
  | some (withoutProof, proofB64) =>
    match scramAttrs withoutProof with
    | none => none
    | some attrs =>
      if Assoc.get attrs ['c'] ≠ some (base64Encode (utf8Encode gs2Header)) then none
      else if Assoc.get attrs ['r'] ≠ some expectedNonce then none
      else
        let proof := base64Lenient proofB64
        if proof.length ≠ scramKeyLen then none
        else
          let authMessage := utf8Encode
            (clientFirstBare ++ ",".toList ++ serverFirst ++ ",".toList ++ withoutProof)
          let clientKey := xorBytes proof (h.hmac storedKey authMessage)
          if h.sha256 clientKey = storedKey then
            some ("v=".toList ++ base64Encode (h.hmac serverKey authMessage))
          else none

inductive ScramState where
  | init
  | awaitingKeys
  | awaitingFinal
  | closed
  deriving DecidableEq, Repr

structure ScramServerSession where
  state : ScramState
  clientFirstBare : Text
  gs2Header : Text
  username : Text
  clientNonce : Text
  serverNoncePart : Text
  fullNonce : Text
  serverFirst : Text
  keys : Option ScramStoredKeys
  decoySecret : Bytes
  deriving DecidableEq, Repr

def ScramServerSession.new (decoySecret : Bytes) : ScramServerSession :=
  ⟨.init, [], [], [], [], [], [], [], none, decoySecret⟩

inductive ScramStep where
  | lookup (username : Text)
  | send (message : Text)
  | done (username message : Text)
  | failed (username : Option Text)
  deriving DecidableEq, Repr

/-- Keys for a name without stored ones: the exchange goes on and its proof fails. -/
def fakeKeys (h : Host) (username : Text) (secret : Bytes) : ScramStoredKeys :=
  { iterations := scramDefaultIterations
    salt := (h.hmac secret (utf8Encode ("salt:".toList ++ username))).take 16
    storedKey := h.hmac secret (utf8Encode ("stored:".toList ++ username))
    serverKey := h.hmac secret (utf8Encode ("server:".toList ++ username)) }

namespace ScramServerSession

def fail (s : ScramServerSession) : ScramServerSession × ScramStep :=
  ({ s with state := .closed }, .failed (if s.username = [] then none else some s.username))

/-- `nonce` is the value drawn by `serverNonce()`. -/
def start (s : ScramServerSession) (nonce clientFirst : Text) : ScramServerSession × ScramStep :=
  if s.state ≠ .init then s.fail
  else
    match parseClientFirst clientFirst with
    | none => s.fail
    | some cf =>
      ({ s with
          clientFirstBare := cf.bare
          gs2Header := cf.gs2Header
          username := cf.username
          clientNonce := cf.clientNonce
          serverNoncePart := nonce
          fullNonce := cf.clientNonce ++ nonce
          state := .awaitingKeys }, .lookup cf.username)

def provideKeys (h : Host) (s : ScramServerSession) (keys : Option ScramStoredKeys) :
    ScramServerSession × ScramStep :=
  if s.state ≠ .awaitingKeys then s.fail
  else
    let k := keys.getD (fakeKeys h s.username s.decoySecret)
    let first := buildServerFirst s.clientNonce s.serverNoncePart k.salt k.iterations
    ({ s with keys := some k, serverFirst := first, state := .awaitingFinal }, .send first)

def final (h : Host) (s : ScramServerSession) (clientFinal : Text) :
    ScramServerSession × ScramStep :=
  match s.keys with
  | none => s.fail
  | some k =>
    if s.state ≠ .awaitingFinal then s.fail
    else
      match verifyClientFinal h s.clientFirstBare s.serverFirst clientFinal s.fullNonce
          s.gs2Header k.storedKey k.serverKey with
      | none => s.fail
      | some message => ({ s with state := .closed }, .done s.username message)

end ScramServerSession

end Ionosphere.Core
