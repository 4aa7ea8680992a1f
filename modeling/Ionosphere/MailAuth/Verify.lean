import Ionosphere.Js.Number
import Ionosphere.MailAuth.Sign

/-! Verifying the signatures of a message: `dkimVerify`. -/
namespace Ionosphere.MailAuth

open Ionosphere.Js Ionosphere.Core Ionosphere.Lib

inductive DkimVerifyOutcome where
  | pass
  | fail
  | permerror
  | temperror
deriving DecidableEq

structure DkimVerifyResult where
  domain : Text
  selector : Text
  result : DkimVerifyOutcome
  error : Option Text := none
  testing : Option Bool := none
  algorithm : Option DkimAlgorithm := none
deriving DecidableEq

def parseAlgorithm (a : Text) : Option DkimAlgorithm :=
  if a = "rsa-sha256".toList then some .rsaSha256
  else if a = "ed25519-sha256".toList then some .ed25519Sha256
  else none

def parseCanonMode (s : Text) : Option DkimCanonMode :=
  if s = "relaxed".toList then some .relaxed else if s = "simple".toList then some .simple else none

/-- `exp * 1000 < Date.now()` for a finite `exp`. -/
def expired (now : Nat) (x : Text) : Bool :=
  match number x with
  | .finite neg num scale =>
    match roundRat neg (num * 1000) (2 ^ scale) with
    | .finite true num _ => 0 < now || 0 < num
    | .finite false num scale => num < now * 2 ^ scale
    | .infinity neg => neg
    | .nan => false
  | _ => false

/-- What the tags of a signature say, up to `c=`. -/
structure SignatureTags where
  tags : List ParsedTag
  domain : Text
  selector : Text
  algorithm : DkimAlgorithm
  bh : Text
  b : Text
  hNames : List Text
  headerCanon : DkimCanonMode
  bodyCanon : DkimCanonMode

def permerror (domain selector : Text) (error : Text) : DkimVerifyResult :=
  { domain, selector, result := .permerror, error := some error }

def failure (domain selector : Text) (error : Text) : DkimVerifyResult :=
  { domain, selector, result := .fail, error := some error }

def withoutFinalDot (s : Text) : Text := if s.getLast? = some '.' then s.dropLast else s

section

variable {K : Type} (c : Crypto K) (u : CaseMap)

def fieldValue (field : HeaderField) : Text :=
  ((splitFirst ':' field.raw).map Prod.snd).getD field.raw

def signedNamesOf (h : Text) : List Text :=
  ((h.splitOn ':').map fun s => toLowerCase u (trim s)).filter (· ≠ [])

def readSignature (field : HeaderField) : Except DkimVerifyResult SignatureTags :=
  match parseTagList u (fieldValue field) with
  | none => .error (permerror [] [] "malformed DKIM-Signature 헤더".toList)
  | some tags =>
    let domain := (findTag tags "d").getD []
    let selector := (findTag tags "s").getD []
    let v := (findTag tags "v").getD "1".toList
    if v ≠ "1".toList then .error (permerror domain selector ("지원하지 않는 v=".toList ++ v))
    else
      let a := (findTag tags "a").getD []
      let bh := (findTag tags "bh").getD []
      let b := (findTag tags "b").getD []
      let h := (findTag tags "h").getD []
      if a = [] ∨ bh = [] ∨ b = [] ∨ h = [] ∨ domain = [] ∨ selector = [] then
        .error (permerror domain selector "필수 태그(a/b/bh/d/h/s) 누락".toList)
      else if a = "rsa-sha1".toList then
        .error (permerror domain selector "rsa-sha1은 RFC 8301에 의해 거부됨".toList)
      else
        match parseAlgorithm a with
        | none => .error (permerror domain selector ("지원하지 않는 알고리즘 a=".toList ++ a))
        | some algorithm =>
          let hNames := signedNamesOf u h
          if !hNames.contains "from".toList then
            .error (permerror domain selector "h=에 from이 없음".toList)
          else
            let canon := (findTag tags "c").getD "simple/simple".toList
            let parts := canon.splitOn '/'
            match parseCanonMode (parts.getD 0 "simple".toList),
              parseCanonMode (parts.getD 1 "simple".toList) with
            | none, _ =>
              .error (permerror domain selector ("알 수 없는 헤더 정규화 c=".toList ++ canon))
            | some _, none =>
              .error (permerror domain selector ("알 수 없는 본문 정규화 c=".toList ++ canon))
            | some headerCanon, some bodyCanon =>
              .ok { tags, domain, selector, algorithm, bh, b, hNames, headerCanon, bodyCanon }

/-- The checks of `x=`, of the lengths and of the body; `none` lets the signature through. -/
def bodyProblem (now : Nat) (body : Text) (s : SignatureTags) : Option DkimVerifyResult :=
  if ((findTag s.tags "x").map (expired now)).getD false then
    some (failure s.domain s.selector "서명 만료(x=)".toList)
  else if (base64Lenient s.bh).length ≠ 32 then
    some (permerror s.domain s.selector "bh= 또는 b= base64 디코딩 실패".toList)
  else
    let canon := canonBody body s.bodyCanon
    match findTag s.tags "l" with
    | none =>
      if sha256Text c canon ≠ base64Lenient s.bh then
        some (failure s.domain s.selector "본문 해시(bh=) 불일치".toList)
      else none
    | some lTag =>
      let limit := number lTag
      if !limit.isInteger || limit.isNegative then
        some (permerror s.domain s.selector ("잘못된 l= 값: ".toList ++ lTag))
      else if canon.length < limit.toNat then
        some (failure s.domain s.selector "l=이 본문 길이보다 큼(본문 절단)".toList)
      else if sha256Text c (canon.take limit.toNat) ≠ base64Lenient s.bh then
        some (failure s.domain s.selector "본문 해시(bh=) 불일치".toList)
      else none

/-- The check of `i=`. -/
def identityProblem (s : SignatureTags) : Option DkimVerifyResult :=
  match findTag s.tags "i" with
  | none => none
  | some iTag =>
    let afterAt := ((splitLast "@".toList iTag).map Prod.snd).getD iTag
    let iDomain := withoutFinalDot (toLowerCase u afterAt)
    let d := withoutFinalDot (toLowerCase u s.domain)
    if iDomain ≠ d ∧ !('.' :: d).isSuffixOf iDomain then
      some (permerror s.domain s.selector ("i=가 d=의 하위 도메인이 아님: ".toList ++ iTag))
    else none

/-- The data that is verified: the value of the first `b` tag is left out of the field. -/
def dataToVerify (groups : List (Text × List HeaderField)) (field : HeaderField)
    (s : SignatureTags) : Bytes :=
  let valueText := fieldValue field
  let blankedValue := match s.tags.find? fun t => t.tag = "b".toList with
    | none => valueText
    | some bTag => blankTag valueText bTag
  let before := ((splitFirst ':' field.raw).map Prod.fst).getD field.raw.dropLast
  hashInput u (resolveHeaderSequence u groups s.hNames)
    ⟨field.name, before ++ ':' :: blankedValue⟩ s.headerCanon

def tryKeyRecord (record : Text) (s : SignatureTags) (data sigBytes : Bytes) : DkimVerifyResult :=
  match parseTagList u record with
  | none => permerror s.domain s.selector "키 레코드 형식 오류".toList
  | some keyTags =>
    let kv := (findTag keyTags "v").getD "DKIM1".toList
    if kv ≠ "DKIM1".toList then
      permerror s.domain s.selector ("지원하지 않는 키 레코드 버전 v=".toList ++ kv)
    else
      match findTag keyTags "p" with
      | none => permerror s.domain s.selector "키 레코드에 p= 없음".toList
      | some [] => permerror s.domain s.selector "폐기된 키(p= 비어있음)".toList
      | some p =>
        let kh := (findTag keyTags "h").getD "sha256".toList
        if !((kh.splitOn ':').map fun x => toLowerCase u (trim x)).contains "sha256".toList then
          permerror s.domain s.selector "키 레코드가 sha256 해시를 허용하지 않음".toList
        else
          let flags := ((findTag keyTags "t").getD []).splitOn ':'
          let testing := some ((flags.map fun x => toLowerCase u (trim x)).contains "y".toList)
          let k := (findTag keyTags "k").getD "rsa".toList
          if k ≠ s.algorithm.keyType then
            { permerror s.domain s.selector ("키 타입 불일치: a=".toList ++ s.algorithm.text ++
                " vs k=".toList ++ k) with testing }
          else
            match dkimPublicKey c (base64Lenient p) s.algorithm with
            | .error reason => { permerror s.domain s.selector reason with testing }
            | .ok key =>
              match verifyDkimData c data s.algorithm key sigBytes with
              | .error err =>
                { permerror s.domain s.selector ("키 파싱/검증 오류: ".toList ++ err) with testing }
              | .ok true => { domain := s.domain, selector := s.selector, result := .pass, testing }
              | .ok false => { failure s.domain s.selector "서명 불일치".toList with testing }

def tryKeyRecords (s : SignatureTags) (data sigBytes : Bytes) :
    DkimVerifyResult → List Text → DkimVerifyResult
  | last, [] => last
  | _, record :: records =>
    let result := tryKeyRecord c u record s data sigBytes
    if result.result = .pass ∨ result.result = .fail then result
    else tryKeyRecords s data sigBytes result records

/-- Strings of one record that came apart are tried joined first. -/
def keyCandidates (txtRecords : List Text) : List Text :=
  if 1 < txtRecords.length then txtRecords.flatten :: txtRecords else txtRecords

def verifyOne (now : Nat) (resolveTxt : Text → Except Text (List Text)) (body : Text)
    (groups : List (Text × List HeaderField)) (field : HeaderField) : DkimVerifyResult :=
  match readSignature u field with
  | .error r => r
  | .ok s =>
    match bodyProblem c now body s with
    | some r => r
    | none =>
      match identityProblem u s with
      | some r => r
      | none =>
        let data := dataToVerify u groups field s
        match resolveTxt (s.selector ++ "._domainkey.".toList ++ s.domain) with
        | .error err =>
          { domain := s.domain, selector := s.selector, result := .temperror,
            error := some ("DNS 조회 실패: ".toList ++ err) }
        | .ok [] => permerror s.domain s.selector "DKIM 키 레코드를 찾을 수 없음".toList
        | .ok txtRecords =>
          tryKeyRecords c u s data (base64Lenient s.b)
            (permerror s.domain s.selector "키 레코드 형식 오류".toList) (keyCandidates txtRecords)

def maxDkimSignatures : Nat := 10

def isSignature (f : HeaderField) : Bool := fieldKey u f = "dkim-signature".toList

/-- `a=` as the result carries it. -/
def withAlgorithm (field : HeaderField) (r : DkimVerifyResult) : DkimVerifyResult :=
  let tags := (parseTagList u (fieldValue field)).getD []
  { r with algorithm := (findTag tags "a").bind parseAlgorithm }

def dkimVerify (now : Nat) (raw : Bytes) (resolveTxt : Text → Except Text (List Text)) :
    List DkimVerifyResult :=
  let (fields, body) := readMessage raw
  let sigFields := fields.filter (isSignature u)
  let groups := groupHeaderFields u fields
  let results := (sigFields.take maxDkimSignatures).map fun field =>
    withAlgorithm u field (verifyOne c u now resolveTxt body groups field)
  results ++
    if maxDkimSignatures < sigFields.length then
      [permerror [] [] ("DKIM 서명 ".toList ++ natText sigFields.length ++
        "개 — 상한(10) 초과분은 검증하지 않음".toList)]
    else []

end

end Ionosphere.MailAuth
