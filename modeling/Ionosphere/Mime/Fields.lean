import Ionosphere.Js.Number
import Ionosphere.Lib.Assoc
import Ionosphere.Mime.Headers

/-! The fields of a part's header: encoded words, and the parameters of `Content-Type` and
`Content-Disposition`. What a `TextDecoder` makes of a charset other than UTF-8 is a parameter. -/
namespace Ionosphere.Mime

open Ionosphere.Js Ionosphere.Lib

/-- `TextDecoder` by label; no text where the constructor throws. -/
structure Charsets where
  decode : Text → Bytes → Option Text

structure Bits where
  acc : Nat
  bits : Nat
  out : Bytes

def Bits.push (b : Bits) (c : Char) : Bits :=
  match base64Value c with
  | none => b
  | some v =>
    let acc := b.acc * 64 + v
    let bits := b.bits + 6
    if 8 ≤ bits then ⟨acc, bits - 8, b.out ++ [UInt8.ofNat (acc / 2 ^ (bits - 8))]⟩
    else ⟨acc, bits, b.out⟩

def base64Decode (text : Text) : Bytes := (text.foldl Bits.push ⟨0, 0, []⟩).out

def hexByte (a b : Char) : UInt8 := UInt8.ofNat (digitsValue 16 [a, b])

/-- The code of a header's encoded words, where `_` stands for a space. -/
def qEncodingDecode : Text → Bytes
  | '=' :: a :: b :: s =>
    if isHexDigit a && isHexDigit b then hexByte a b :: qEncodingDecode s
    else 0x3d :: qEncodingDecode (a :: b :: s)
  | '_' :: s => 0x20 :: qEncodingDecode s
  | c :: s => UInt8.ofNat c.toNat :: qEncodingDecode s
  | [] => []

def utf8Fatal (bytes : Bytes) : Option Text :=
  let s := utf8Decode bytes
  if utf8Encode s = bytes ∨ utf8Encode (Char.ofNat 0xfeff :: s) = bytes then some s else none

/-- `replace(/^"(.*)"$/, "$1")`. -/
def unquote (s : Text) : Text :=
  if 2 ≤ s.length ∧ s.head? = some '"' ∧ s.getLast? = some '"' ∧
      s.tail.dropLast.all (!isLineTerminator ·) then s.tail.dropLast
  else s

def charsetAliases : List (Text × Text) :=
  ["cp949", "ks_c_5601-1987", "ksc5601", "euckr", "windows-949"].map
    (·.toList, "euc-kr".toList)

variable (u : CaseMap) (cs : Charsets)

def decodeBytesWithCharset (bytes : Bytes) (charsetRaw : Option Text) : Text :=
  let label := charsetRaw.map fun s => unquote (toLowerCase u (trim s))
  if label = some "utf-8".toList ∨ label = some "utf8".toList then utf8Decode bytes
  else if label = some "us-ascii".toList ∨ label = some "iso-8859-1".toList ∨
      label = some "latin1".toList then latin1Decode bytes
  else
    let decoderLabel := ((Assoc.get charsetAliases (label.getD [])).or label).getD []
    let decoded := if decoderLabel = [] then none else cs.decode decoderLabel bytes
    match decoded with
    | some s => s
    | none => (utf8Fatal bytes).getD (latin1Decode bytes)

structure EncodedWord where
  charset : Text
  enc : Char
  content : Text
  rest : Text

/-- `=\?[^?\s]+\?[bBqQ]\?[^?]*\?=` at the start of a text. -/
def encodedWord : Text → Option EncodedWord
  | '=' :: '?' :: s =>
    match splitFirst '?' s with
    | some (charset, enc :: '?' :: s) =>
      if charset ≠ [] ∧ charset.all (!isWhiteSpace ·) ∧ enc ∈ ['b', 'B', 'q', 'Q'] then
        match splitFirst '?' s with
        | some (content, '=' :: rest) => some ⟨charset, enc, content, rest⟩
        | _ => none
      else none
    | _ => none
  | _ => none

/-- White space between two encoded words is dropped; `skip` characters are behind the scan. -/
def collapseGaps : Nat → Text → Text
  | _, [] => []
  | skip + 1, _ :: s => collapseGaps skip s
  | 0, c :: s =>
    match encodedWord (c :: s) with
    | none => c :: collapseGaps 0 s
    | some w =>
      let gap := w.rest.takeWhile fun c => c = ' ' || c = '\t'
      if gap ≠ [] ∧ (encodedWord (w.rest.drop gap.length)).isSome then
        let word := (c :: s).take ((c :: s).length - w.rest.length)
        word ++ collapseGaps (word.length + gap.length - 1) s
      else c :: collapseGaps 0 s

def decodeWord (w : EncodedWord) : Text :=
  let bytes := if w.enc = 'b' ∨ w.enc = 'B' then base64Decode w.content
    else qEncodingDecode w.content
  decodeBytesWithCharset u cs bytes (some w.charset)

def decodeWords : Nat → Text → Text
  | _, [] => []
  | skip + 1, _ :: s => decodeWords skip s
  | 0, c :: s =>
    match encodedWord (c :: s) with
    | none => c :: decodeWords 0 s
    | some w => decodeWord u cs w ++ decodeWords (s.length - w.rest.length) s

def decodeEncodedWords (input : Text) : Text := decodeWords u cs 0 (collapseGaps 0 input)

abbrev Headers := List (Text × List Text)

def addHeader (headers : Headers) (record : HeaderRecord) : Headers :=
  match record.name with
  | none => headers
  | some name =>
    let value := decodeEncodedWords u cs
      (trim ((splitFirst ':' record.unfolded).elim record.unfolded (·.2)))
    Assoc.set headers name ((Assoc.get headers name).getD [] ++ [value])

def parseHeaders (headerText : Text) : Headers :=
  if headerText = [] then [] else (splitHeaderRecords u headerText).foldl (addHeader u cs) []

def firstHeader (headers : Headers) (name : Text) : Option Text :=
  (Assoc.get headers name).bind (·.head?)

structure Semicolons where
  out : List Text
  inQuotes : Bool
  current : Text
  before : Option Char

def Semicolons.step (t : Semicolons) (ch : Char) : Semicolons :=
  if t.inQuotes then
    ⟨t.out, !(ch = '"' && t.before ≠ some '\\'), t.current ++ [ch], some ch⟩
  else if ch = '"' then ⟨t.out, true, t.current ++ [ch], some ch⟩
  else if ch = ';' then ⟨t.out ++ [t.current], false, [], some ch⟩
  else ⟨t.out, false, t.current ++ [ch], some ch⟩

def splitTopLevelSemicolon (s : Text) : List Text :=
  let t := s.foldl Semicolons.step ⟨[], false, [], none⟩
  t.out ++ [t.current]

abbrev Params := List (Text × Text)

/-- `key in params`: an object without the key inherits it where `Object.prototype` has it; of
those names two are in lower case. -/
def inParams (params : Params) (key : Text) : Bool :=
  (Assoc.get params key).isSome || key = "constructor".toList || key = "__proto__".toList

structure Piece where
  value : Text
  encoded : Bool

structure Extension where
  base : Text
  index : Nat
  star : Bool

/-- `/^([^*]+)\*(\d+)?(\*)?$/`. -/
def extensionOf (key : Text) : Option Extension :=
  match splitFirst '*' key with
  | none => none
  | some (base, s) =>
    let digits := s.takeWhile isDigit
    let rest := s.dropWhile isDigit
    if base = [] then none
    else if rest = [] then some ⟨base, digitsValue 10 digits, false⟩
    else if rest = ['*'] then some ⟨base, digitsValue 10 digits, true⟩
    else none

def paramValue (val : Text) : Text :=
  match val with
  | '"' :: s =>
    match splitFirst '"' s with
    | some (quoted, _) => quoted
    | none => s
  | _ => if val.getLast? = some '"' then val.dropLast else val

structure ParamState where
  params : Params
  continuations : List (Text × List (Nat × Piece))

def addParam (t : ParamState) (part : Text) : ParamState :=
  match splitFirst '=' (trim part) with
  | none => t
  | some (front, back) =>
    let key := toLowerCase u (trim front)
    let val := paramValue (trim back)
    match extensionOf key with
    | some ext =>
      let list := (Assoc.get t.continuations ext.base).getD []
      { t with continuations :=
          Assoc.set t.continuations ext.base (Assoc.set list ext.index ⟨val, ext.star⟩) }
    | none => if inParams t.params key then t else { t with params := t.params ++ [(key, val)] }

def piecesFrom (pieces : List (Nat × Piece)) : Nat → Nat → List Piece
  | 0, _ => []
  | n + 1, i =>
    match Assoc.get pieces i with
    | none => []
    | some piece => piece :: piecesFrom pieces n (i + 1)

/-- `%([0-9a-f]{2})`, case folded. -/
def percentDecode : Text → Bytes
  | '%' :: a :: b :: s =>
    if isHexDigit a && isHexDigit b then hexByte a b :: percentDecode s
    else UInt8.ofNat '%'.toNat :: percentDecode (a :: b :: s)
  | c :: s => UInt8.ofNat c.toNat :: percentDecode s
  | [] => []

/-- `/^([^']*)'[^']*'(.*)$/`. -/
def extendedValue (joined : Text) : Option (Text × Text) :=
  match splitFirst '\'' joined with
  | none => none
  | some (charset, s) =>
    match splitFirst '\'' s with
    | none => none
    | some (_, encoded) =>
      if encoded.all (!isLineTerminator ·) then some (charset, encoded) else none

def joinPieces (pieces : List (Nat × Piece)) : Text :=
  let found := piecesFrom pieces (pieces.length) 0
  let joined := found.flatMap (·.value)
  if found.any (·.encoded) then
    let m := extendedValue joined
    decodeBytesWithCharset u cs (percentDecode (m.elim joined (·.2))) (m.map (·.1))
  else joined

def addContinuation (params : Params) (c : Text × List (Nat × Piece)) : Params :=
  let empty := ((piecesFrom c.2 c.2.length 0).flatMap (·.value)).isEmpty
  if empty || inParams params c.1 then params else params ++ [(c.1, joinPieces u cs c.2)]

structure HeaderParams where
  mainValue : Text
  params : Params

def splitHeaderParams (raw : Text) : HeaderParams :=
  let parts := splitTopLevelSemicolon raw
  let t := parts.tail.foldl (addParam u) ⟨[], []⟩
  ⟨trim (parts.headD []), t.continuations.foldl (addContinuation u cs) t.params⟩

structure ContentTypeInfo where
  type : Text
  subtype : Text
  params : Params
deriving DecidableEq

def textPlain (params : Params) : ContentTypeInfo := ⟨"text".toList, "plain".toList, params⟩

def parseContentType (raw : Option Text) : ContentTypeInfo :=
  match raw with
  | none | some [] => textPlain []
  | some raw =>
    let p := splitHeaderParams u cs raw
    match splitFirst '/' p.mainValue with
    | none => textPlain p.params
    | some (front, back) =>
      let type := toLowerCase u (trim front)
      let subtype := toLowerCase u (trim back)
      if type = [] ∨ subtype = [] then textPlain p.params else ⟨type, subtype, p.params⟩

structure ContentDispositionInfo where
  type : Text
  filename : Option Text

def parseContentDisposition (raw : Option Text) : Option ContentDispositionInfo :=
  match raw with
  | none | some [] => none
  | some raw =>
    let p := splitHeaderParams u cs raw
    some ⟨toLowerCase u (trim p.mainValue), Assoc.get p.params "filename".toList⟩

end Ionosphere.Mime
