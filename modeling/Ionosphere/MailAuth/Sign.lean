import Ionosphere.Core.Base64
import Ionosphere.MailAuth.Tags

/-! Signing a message: `dkimSign`, with the keys and the node functions it stands on. -/
namespace Ionosphere.MailAuth

open Ionosphere.Js Ionosphere.Core Ionosphere.Lib

inductive DkimAlgorithm where
  | rsaSha256
  | ed25519Sha256
deriving DecidableEq

def DkimAlgorithm.text : DkimAlgorithm → Text
  | .rsaSha256 => "rsa-sha256".toList
  | .ed25519Sha256 => "ed25519-sha256".toList

/-- The `k=` of a key record. -/
def DkimAlgorithm.keyType : DkimAlgorithm → Text
  | .rsaSha256 => "rsa".toList
  | .ed25519Sha256 => "ed25519".toList

/-- `node:crypto`: a digest of 32 bytes, signing and verifying with SHA-256 or with no digest of
its own, and reading public keys. An exception is its message. -/
structure Crypto (K : Type) where
  sha256 : Bytes → Bytes
  sha256_length : ∀ b, (sha256 b).length = 32
  sign : Bool → Bytes → Text → Except Text Bytes
  verify : Bool → Bytes → K → Bytes → Except Text Bool
  /-- A key in SPKI DER with its modulus length. -/
  publicKeyFromDer : Bytes → Except Text (K × Option Nat)
  /-- An Ed25519 key from a JWK with this `x`. -/
  publicKeyFromJwk : Bytes → Except Text K

section

variable {K : Type} (c : Crypto K)

def signDkimData (data : Bytes) (algorithm : DkimAlgorithm) (privateKey : Text) :
    Except Text Bytes :=
  match algorithm with
  | .rsaSha256 => c.sign true data privateKey
  | .ed25519Sha256 => c.sign false (c.sha256 data) privateKey

def verifyDkimData (data : Bytes) (algorithm : DkimAlgorithm) (key : K) (signature : Bytes) :
    Except Text Bool :=
  match algorithm with
  | .rsaSha256 => c.verify true data key signature
  | .ed25519Sha256 => c.verify false (c.sha256 data) key signature

def ed25519PublicKeyFromRaw (raw : Bytes) : Except Text K :=
  if raw.length ≠ 32 then
    .error ("Ed25519 공개키 길이 이상(".toList ++ natText raw.length ++ "바이트, 32 필요)".toList)
  else c.publicKeyFromJwk raw

def minRsaBits : Nat := 1024

def dkimPublicKey (pubKeyBytes : Bytes) : DkimAlgorithm → Except Text K
  | .ed25519Sha256 =>
    (ed25519PublicKeyFromRaw c pubKeyBytes).mapError fun err => "키 파싱 오류: ".toList ++ err
  | .rsaSha256 =>
    match c.publicKeyFromDer pubKeyBytes with
    | .error err => .error ("키 파싱 오류: ".toList ++ err)
    | .ok (key, bits) =>
      if bits.getD 0 < minRsaBits then
        let shown := match bits with
          | none => ['?']
          | some bits => natText bits
        .error ("RSA 키 크기 부족(".toList ++ shown ++ "비트, 최소 1024)".toList)
      else .ok key

end

def DkimCanonMode.text : DkimCanonMode → Text
  | .relaxed => "relaxed".toList
  | .simple => "simple".toList

structure DkimSignOptions where
  domain : Text
  selector : Text
  privateKey : Text
  algorithm : DkimAlgorithm
  headerCanon : Option DkimCanonMode
  bodyCanon : Option DkimCanonMode
  signedHeaders : Option (List Text)
  timestamp : Option Nat
  expiration : Option Nat

def defaultSignedHeaders : List Text :=
  ["from", "to", "cc", "subject", "date", "message-id", "reply-to", "in-reply-to", "references",
    "mime-version", "content-type", "content-transfer-encoding"].map String.toList

def DkimSignOptions.headerMode (o : DkimSignOptions) : DkimCanonMode := o.headerCanon.getD .relaxed

def DkimSignOptions.bodyMode (o : DkimSignOptions) : DkimCanonMode := o.bodyCanon.getD .relaxed

def readMessage (raw : Bytes) : List HeaderField × Text :=
  let message := splitMessage (normalizeLineEndings (latin1Decode raw))
  (parseHeaderFields message.headerBlock, message.body)

def prependHeader (raw : Bytes) (header : Text) : Bytes := utf8Encode (header ++ crlf) ++ raw

def foldWidth : Nat := 78

/-- The loop of `foldSignatureTail`; it takes at least one character each time. -/
def foldFrom : Nat → Nat → Text → Text
  | 0, _, _ => []
  | n + 1, col, tail =>
    let room := max (foldWidth - col) 1
    if tail = [] then []
    else
      tail.take room ++
        if tail.drop room = [] then [] else crlf ++ '\t' :: foldFrom n 1 (tail.drop room)

def foldSignatureTail (headLength : Nat) (tail : Text) : Text :=
  foldFrom tail.length headLength tail

/-- `replace(/\r\n$/, "")`. -/
def dropCrlf (s : Text) : Text := if crlf.isSuffixOf s then s.take (s.length - 2) else s

section

variable {K : Type} (c : Crypto K) (u : CaseMap)

/-- The `h=` list: From twice, then the names that are asked for and there. -/
def signedNames (o : DkimSignOptions) (groups : List (Text × List HeaderField)) : List Text :=
  let candidates := ((o.signedHeaders.getD defaultSignedHeaders).map (toLowerCase u)).filter fun n =>
    n ≠ "from".toList && (Assoc.get groups n).isSome
  "from".toList :: "from".toList :: candidates

def sha256Text (s : Text) : Bytes := c.sha256 (latin1Encode s)

/-- The tags in their order, `b` still empty. `now` is in milliseconds. -/
def signedTags (now : Nat) (o : DkimSignOptions) (hNames : List Text) (body : Text) :
    List (Text × Text) :=
  [("v".toList, "1".toList), ("a".toList, o.algorithm.text),
    ("c".toList, o.headerMode.text ++ '/' :: o.bodyMode.text), ("d".toList, o.domain),
    ("s".toList, o.selector), ("t".toList, natText (o.timestamp.getD (now / 1000)))] ++
  (o.expiration.map fun x => ("x".toList, natText x)).toList ++
  [("h".toList, join [':'] hNames),
    ("bh".toList, base64Encode (sha256Text c (canonBody body o.bodyMode))), ("b".toList, [])]

/-- `tagParts.join("; ")` after the field name. -/
def unsignedText (tags : List (Text × Text)) : Text :=
  "DKIM-Signature: ".toList ++ join "; ".toList (tags.map fun p => p.1 ++ '=' :: p.2)

def hashInput (resolved : List (Option HeaderField)) (dkimField : HeaderField)
    (mode : DkimCanonMode) : Bytes :=
  latin1Encode (headerHashInput u resolved mode ++ dropCrlf (canonHeaderField u dkimField mode))

def prepareSignature (now : Nat) (raw : Bytes) (o : DkimSignOptions) : Text × Bytes :=
  let (fields, body) := readMessage raw
  let groups := groupHeaderFields u fields
  let hNames := signedNames u o groups
  let resolved := resolveHeaderSequence u groups hNames
  let unsignedHeaderText := unsignedText (signedTags c now o hNames body)
  (unsignedHeaderText,
    hashInput u resolved ⟨"DKIM-Signature".toList, unsignedHeaderText⟩ o.headerMode)

def noFrom : Text := "dkimSign: 메시지에 From 헤더가 없어 서명할 수 없습니다".toList

def dkimSign (now : Nat) (raw : Bytes) (o : DkimSignOptions) : Except Text Text :=
  let groups := groupHeaderFields u (readMessage raw).1
  if (Assoc.get groups "from".toList).isNone then .error noFrom
  else
    let (unsignedHeaderText, dataToSign) := prepareSignature c u now raw o
    match signDkimData c dataToSign o.algorithm o.privateKey with
    | .error err => .error err
    | .ok signature =>
      .ok (unsignedHeaderText ++
        foldSignatureTail unsignedHeaderText.length (base64Encode signature))

end

end Ionosphere.MailAuth
