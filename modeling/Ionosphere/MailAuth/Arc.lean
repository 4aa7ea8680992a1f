import Ionosphere.MailAuth.Verify
import Mathlib.Data.List.Sort

/-! The Authenticated Received Chain: `arcSeal` and `arcVerify`. -/
namespace Ionosphere.MailAuth

open Ionosphere.Js Ionosphere.Core Ionosphere.Lib

inductive ArcKind where
  | aar
  | ams
  | seal
deriving DecidableEq

def ArcKind.name : ArcKind → Text
  | .aar => "ARC-Authentication-Results".toList
  | .ams => "ARC-Message-Signature".toList
  | .seal => "ARC-Seal".toList

/-- An instance is a number or, as `none`, `Infinity`. -/
structure ArcSet where
  inst : Option Nat
  aar : Option HeaderField := none
  ams : Option HeaderField := none
  sealField : Option HeaderField := none
deriving DecidableEq

def ArcSet.put (s : ArcSet) (f : HeaderField) : ArcKind → ArcSet
  | .aar => { s with aar := some f }
  | .ams => { s with ams := some f }
  | .seal => { s with sealField := some f }

/-- The match of `(?:^|;)\s*t=\s*…` for a letter `t`: what follows the first tag of that name for
which `pick` finds something. -/
def matchTag {α : Type} (t : Char) (pick : Text → Option α) (text : Text) : Option α :=
  (text.splitOn ';').findSome? fun segment =>
    match trimStart segment with
    | c :: '=' :: rest => if c = t then pick (trimStart rest) else none
    | _ => none

def pickRun (p : Char → Bool) (s : Text) : Option Text :=
  if s.takeWhile p = [] then none else some (s.takeWhile p)

/-- `raw.slice(raw.indexOf(":") + 1)` is `fieldValue`. -/
def instanceOf (field : HeaderField) : Option (Option Nat) :=
  (matchTag 'i' (pickRun isDigit) (fieldValue field)).map decimalNumber

def instanceLe : Option Nat → Option Nat → Bool
  | _, none => true
  | none, some _ => false
  | some a, some b => a ≤ b

def isWordChar (c : Char) : Bool :=
  isDigit c || (65 ≤ c.toNat && c.toNat ≤ 90) || (97 ≤ c.toNat && c.toNat ≤ 122) || c = '_'

def blankFrom : Bool → Text → Text
  | _, [] => []
  | afterWord, c :: s =>
    if !afterWord && c = 'b' && s.head? = some '=' then
      'b' :: '=' :: (s.drop 1).dropWhile fun c => c ≠ ';' && c ≠ '\r' && c ≠ '\n'
    else c :: blankFrom (isWordChar c) s

def blankB (canonLine : Text) : Text := blankFrom false canonLine

section

variable {K : Type} (c : Crypto K) (u : CaseMap)

def arcKind (f : HeaderField) : Option ArcKind :=
  let name := fieldKey u f
  if name = "arc-authentication-results".toList then some .aar
  else if name = "arc-message-signature".toList then some .ams
  else if name = "arc-seal".toList then some .seal
  else none

def addArc (sets : List (Option Nat × ArcSet)) (f : HeaderField) : List (Option Nat × ArcSet) :=
  match arcKind u f, instanceOf f with
  | some kind, some i =>
    if i = some 0 then sets
    else Assoc.set sets i (((Assoc.get sets i).getD { inst := i }).put f kind)
  | _, _ => sets

def chainOf (fields : List HeaderField) : List ArcSet :=
  ((fields.foldl (addArc u) []).map Prod.snd).insertionSort fun a b => instanceLe a.inst b.inst

def parseArcChain (raw : Bytes) : List ArcSet := chainOf u (readMessage raw).1

inductive ArcCv where
  | none
  | pass
  | fail
deriving DecidableEq

def ArcCv.text : ArcCv → Text
  | .none => "none".toList
  | .pass => "pass".toList
  | .fail => "fail".toList

structure ArcSealOptions where
  domain : Text
  selector : Text
  privateKey : Text
  algorithm : DkimAlgorithm
  authResults : Text
  cv : Option ArcCv
  timestamp : Option Nat
  signedHeaders : Option (List Text)

/-- `AMS_SIGNED_HEADERS` are the headers DKIM signs by default. -/
def amsSignedHeaders : List Text := defaultSignedHeaders

/-- `Math.max` of the instances, and 0. -/
def maxInstance (chain : List ArcSet) : Option Nat :=
  chain.foldl (fun m s => if instanceLe m s.inst then s.inst else m) (some 0)

def instanceText : Option Nat → Text
  | none => "Infinity".toList
  | some n => natText n

/-- The `h=` list. -/
def amsNames (o : ArcSealOptions) (groups : List (Text × List HeaderField)) : List Text :=
  let candidates := ((o.signedHeaders.getD amsSignedHeaders).map (toLowerCase u)).filter fun n =>
    n ≠ "from".toList && (Assoc.get groups n).isSome
  if (Assoc.get groups "from".toList).isSome then
    "from".toList :: "from".toList :: candidates
  else candidates

def amsTags (i : Text) (t : Nat) (o : ArcSealOptions) (hNames : List Text) (body : Text) :
    List (Text × Text) :=
  [("i".toList, i), ("a".toList, o.algorithm.text), ("c".toList, "relaxed/relaxed".toList),
    ("d".toList, o.domain), ("s".toList, o.selector), ("t".toList, natText t),
    ("h".toList, join [':'] hNames),
    ("bh".toList, base64Encode (sha256Text c (canonBody body .relaxed))), ("b".toList, [])]

def sealTags (i : Text) (t : Nat) (cv : ArcCv) (o : ArcSealOptions) : List (Text × Text) :=
  [("i".toList, i), ("a".toList, o.algorithm.text), ("t".toList, natText t), ("cv".toList, cv.text),
    ("d".toList, o.domain), ("s".toList, o.selector), ("b".toList, [])]

def tagField (kind : ArcKind) (tags : List (Text × Text)) : Text :=
  kind.name ++ ": ".toList ++ join "; ".toList (tags.map fun p => p.1 ++ '=' :: p.2)

def ArcSet.fields (s : ArcSet) : List HeaderField := [s.aar, s.ams, s.sealField].filterMap id

/-- `priorFields` are those of the sets before. -/
def buildSealInput (priorFields : List HeaderField) (newAar newAms newSeal : HeaderField) : Text :=
  (priorFields.flatMap fun f => canonHeaderField u f .relaxed) ++
    canonHeaderField u newAar .relaxed ++ canonHeaderField u newAms .relaxed ++
    dropCrlf (blankB (canonHeaderField u newSeal .relaxed))

def amsInput (groups : List (Text × List HeaderField)) (hNames : List Text) (amsSelf : Text) :
    Bytes :=
  latin1Encode (headerHashInput u (resolveHeaderSequence u groups hNames) .relaxed ++
    dropCrlf amsSelf)

/-- `now` is in milliseconds. -/
def arcSeal (now : Nat) (raw : Bytes) (o : ArcSealOptions) : Except Text Text :=
  let chain := parseArcChain u raw
  let i := instanceText ((maxInstance chain).map fun n => roundInt (n + 1))
  let cv := if chain = [] then .none else o.cv.getD .none
  let t := o.timestamp.getD (now / 1000)
  let aarField : HeaderField := ⟨ArcKind.aar.name,
    ArcKind.aar.name ++ ": i=".toList ++ i ++ "; ".toList ++ o.authResults⟩
  let groups := groupHeaderFields u (readMessage raw).1
  let hNames := amsNames u o groups
  let amsUnsigned := tagField .ams (amsTags c i t o hNames (readMessage raw).2)
  let amsSelf := canonHeaderField u ⟨ArcKind.ams.name, amsUnsigned⟩ .relaxed
  match signDkimData c (amsInput u groups hNames amsSelf) o.algorithm o.privateKey with
  | .error err => .error err
  | .ok amsSig =>
    let amsText := amsUnsigned ++ foldSignatureTail amsUnsigned.length (base64Encode amsSig)
    let sealUnsigned := tagField .seal (sealTags i t cv o)
    let sealInput := buildSealInput u (chain.flatMap ArcSet.fields) aarField ⟨ArcKind.ams.name, amsText⟩
      ⟨ArcKind.seal.name, sealUnsigned⟩
    match signDkimData c (latin1Encode sealInput) o.algorithm o.privateKey with
    | .error err => .error err
    | .ok sealSig =>
      let sealText := sealUnsigned ++ foldSignatureTail sealUnsigned.length (base64Encode sealSig)
      .ok (join crlf [sealText, amsText, aarField.raw])

def parseTags (field : HeaderField) : List (Text × Text) :=
  (((Pieces.split '\r' '\n' (fieldValue field)).flatten).splitOn ';').foldl
    (fun map part =>
      match splitFirst '=' part with
      | none => map
      | some (before, after) => Assoc.set map (toLowerCase u (trim before)) (trim after)) []

def getTag (tags : List (Text × Text)) (name : String) : Text :=
  (Assoc.get tags name.toList).getD []

/-- The key is imported for any other `a=` as an RSA key. -/
def keyAlgorithm (a : Text) : DkimAlgorithm :=
  if a = "ed25519-sha256".toList then .ed25519Sha256 else .rsaSha256

/-- The signature is checked for any other `a=` as an Ed25519 signature. -/
def checkAlgorithm (a : Text) : DkimAlgorithm :=
  if a = "rsa-sha256".toList then .rsaSha256 else .ed25519Sha256

def isKeyTypeChar (c : Char) : Bool :=
  isDigit c || (65 ≤ c.toNat && c.toNat ≤ 90) || (97 ≤ c.toNat && c.toNat ≤ 122) || c = '-'

def isKeyChar (c : Char) : Bool :=
  isDigit c || (65 ≤ c.toNat && c.toNat ≤ 90) || (97 ≤ c.toNat && c.toNat ≤ 122) ||
    c = '+' || c = '/' || c = '=' || isWhiteSpace c

/-- `replace(/\s+/g, "")`. -/
def stripWhite (s : Text) : Text := s.filter fun c => !isWhiteSpace c

def publicKeyFromTxt (txtRecords : List Text) (a : Text) : Option K :=
  let joined := txtRecords.flatten
  match matchTag 'k' (pickRun isKeyTypeChar) joined with
  | some k => if toLowerCase u k ≠ (keyAlgorithm a).keyType then none else importKey joined
  | none => importKey joined
where
  importKey (joined : Text) : Option K :=
    match matchTag 'p' (fun s => some (s.takeWhile isKeyChar)) joined with
    | none => none
    | some p =>
      if stripWhite p = [] then none
      else (dkimPublicKey c (base64Lenient (stripWhite p)) (keyAlgorithm a)).toOption

/-- `none` is ok, else the reason; an exception of the check is its text. -/
def verifySig (resolveTxt : Text → Except Text (List Text)) (data : Bytes)
    (b domain selector a : Text) : Except Text (Option Text) :=
  match resolveTxt (selector ++ "._domainkey.".toList ++ domain) with
  | .error err => .ok (some ("DNS 실패: ".toList ++ err))
  | .ok txt =>
    match publicKeyFromTxt c u txt a with
    | none => .ok (some "공개키 없음".toList)
    | some key =>
      match verifyDkimData c data (checkAlgorithm a) key (base64Lenient (stripWhite b)) with
      | .error err => .error err
      | .ok ok => .ok (if ok then none else some "서명 불일치".toList)

def verifyAms (resolveTxt : Text → Except Text (List Text)) (raw : Bytes) (ams : HeaderField) :
    Except Text (Option Text) :=
  let tags := parseTags u ams
  let d := getTag tags "d"
  let s := getTag tags "s"
  let a := getTag tags "a"
  let bh := getTag tags "bh"
  let b := getTag tags "b"
  let h := getTag tags "h"
  if d = [] ∨ s = [] ∨ a = [] ∨ bh = [] ∨ b = [] ∨ h = [] then .ok (some "AMS 태그 누락".toList)
  else
    let (fields, body) := readMessage raw
    if base64Encode (sha256Text c (canonBody body .relaxed)) ≠ bh then
      .ok (some "bh 불일치".toList)
    else
      let hNames := (h.splitOn ':').map fun n => toLowerCase u (trim n)
      verifySig c u resolveTxt (amsInput u (groupHeaderFields u fields) hNames
        (blankB (canonHeaderField u ams .relaxed))) b d s a

/-- A set that has all three fields. -/
structure FullSet where
  aar : HeaderField
  ams : HeaderField
  sealField : HeaderField
deriving DecidableEq

def FullSet.fields (s : FullSet) : List HeaderField := [s.aar, s.ams, s.sealField]

/-- `chainUpToK` is the sets before and the current one. -/
def verifySeal (resolveTxt : Text → Except Text (List Text)) (prior : List FullSet)
    (current : FullSet) : Except Text (Option Text) :=
  let tags := parseTags u current.sealField
  let d := getTag tags "d"
  let s := getTag tags "s"
  let a := getTag tags "a"
  let b := getTag tags "b"
  if d = [] ∨ s = [] ∨ a = [] ∨ b = [] then .ok (some "AS 태그 누락".toList)
  else
    verifySig c u resolveTxt (latin1Encode (buildSealInput u (prior.flatMap FullSet.fields)
      current.aar current.ams current.sealField)) b d s a

structure ArcVerifyResult where
  cv : ArcCv
  instances : Nat
  reason : Option Text := none
deriving DecidableEq

def maxArcSets : Nat := 50

def completeFrom : Nat → List ArcSet → Except ArcSet (List FullSet)
  | _, [] => .ok []
  | k, s :: sets =>
    match s.aar, s.ams, s.sealField with
    | some aar, some ams, some sealField =>
      if s.inst ≠ some (k + 1) then .error s
      else (completeFrom (k + 1) sets).map fun full => ⟨aar, ams, sealField⟩ :: full
    | _, _, _ => .error s

def verifySeals (resolveTxt : Text → Except Text (List Text)) :
    List FullSet → List FullSet → Except Text (Option Text)
  | _, [] => .ok none
  | prior, current :: sets =>
    match verifySeal c u resolveTxt prior current with
    | .error err => .error err
    | .ok (some reason) => .ok (some ("AS(i=".toList ++ natText (prior.length + 1) ++
        ") 실패: ".toList ++ reason))
    | .ok none => verifySeals resolveTxt (prior ++ [current]) sets

def arcVerify (raw : Bytes) (resolveTxt : Text → Except Text (List Text)) :
    Except Text ArcVerifyResult :=
  let chain := parseArcChain u raw
  let failed := fun reason =>
    Except.ok { cv := .fail, instances := chain.length, reason := some reason }
  if maxArcSets < chain.length then
    failed ("ARC 세트 ".toList ++ natText chain.length ++ "개 — 상한(50) 초과".toList)
  else
    match completeFrom 0 chain with
    | .error s => failed ("불완전/불연속 인스턴스 ".toList ++ instanceText s.inst)
    | .ok sets =>
      match sets.getLast? with
      -- there is no chain
      | none => .ok { cv := .none, instances := 0 }
      | some newest =>
        match verifyAms c u resolveTxt raw newest.ams with
        | .error err => .error err
        | .ok (some reason) =>
          failed ("AMS(i=".toList ++ natText chain.length ++ ") 실패: ".toList ++ reason)
        | .ok none =>
          match verifySeals c u resolveTxt [] sets with
          | .error err => .error err
          | .ok (some reason) => failed reason
          | .ok none => .ok { cv := .pass, instances := chain.length }

end

end Ionosphere.MailAuth
