import Ionosphere.Js.Text

/-! DANE for SMTP: a presented certificate chain against a set of TLSA records. Records of an
unknown usage, selector or matching type are ignored, and a set with no record left does not
apply. -/
namespace Ionosphere.MailAuth

open Ionosphere.Js

structure TlsaRecord where
  usage : Nat
  selector : Nat
  matchingType : Nat
  data : Bytes
deriving DecidableEq

structure DaneTlsaSet where
  records : List TlsaRecord
  dnssecValidated : Bool
deriving DecidableEq

structure Certificate where
  raw : Bytes
  spki : Bytes
deriving DecidableEq

inductive DaneResult where
  | matched (usage : Nat)
  | notApplicable (reason : String)
  | mismatch (reason : String)
deriving DecidableEq

/-- `createHash` of node. -/
structure Digests where
  sha256 : Bytes → Bytes
  sha512 : Bytes → Bytes

def DANE_TA : Nat := 2
def DANE_EE : Nat := 3
def FULL_CERT : Nat := 0
def SPKI : Nat := 1
def EXACT : Nat := 0
def SHA256 : Nat := 1
def SHA512 : Nat := 2

def isUnderstood (rec : TlsaRecord) : Bool :=
  (rec.usage = DANE_TA || rec.usage = DANE_EE) &&
    (rec.selector = FULL_CERT || rec.selector = SPKI) &&
    (rec.matchingType = EXACT || rec.matchingType = SHA256 || rec.matchingType = SHA512)

def hasUsableTlsa (tlsa : DaneTlsaSet) : Bool :=
  tlsa.dnssecValidated && tlsa.records.any isUnderstood

def selectorBytes (cert : Certificate) (selector : Nat) : Option Bytes :=
  if selector = FULL_CERT then some cert.raw
  else if selector = SPKI then some cert.spki
  else none

def matchBytes (d : Digests) (input : Bytes) (matchingType : Nat) : Option Bytes :=
  if matchingType = EXACT then some input
  else if matchingType = SHA256 then some (d.sha256 input)
  else if matchingType = SHA512 then some (d.sha512 input)
  else none

def bytesEqual (a b : Bytes) : Bool :=
  a.length = b.length && (List.zipWith (· ^^^ ·) a b).foldl (· ||| ·) 0 = 0

def recordMatches (d : Digests) (rec : TlsaRecord) (cert : Certificate) : Bool :=
  match (selectorBytes cert rec.selector).bind fun sel => matchBytes d sel rec.matchingType with
  | none => false
  | some got => bytesEqual got rec.data

def candidates (chain : List Certificate) (rec : TlsaRecord) : List Certificate :=
  if rec.usage = DANE_EE then chain.take 1 else chain

/-- The loop over the records, with `usable` so far. -/
def checkRecords (d : Digests) (chain : List Certificate) : List TlsaRecord → Nat → DaneResult
  | [], usable =>
    if usable = 0 then .notApplicable "이해할 수 있는 TLSA 레코드 없음"
    else .mismatch "TLSA와 맞는 인증서가 없다"
  | rec :: records, usable =>
    if !isUnderstood rec then checkRecords d chain records usable
    else if (candidates chain rec).any (recordMatches d rec) then .matched rec.usage
    else checkRecords d chain records (usable + 1)

def checkDane (d : Digests) (chain : List Certificate) (tlsa : DaneTlsaSet) : DaneResult :=
  if !tlsa.dnssecValidated then .notApplicable "TLSA가 DNSSEC로 검증되지 않았다"
  else if tlsa.records = [] then .notApplicable "TLSA 없음"
  else if chain = [] then .mismatch "인증서 체인이 비었다"
  else checkRecords d chain tlsa.records 0

end Ionosphere.MailAuth
