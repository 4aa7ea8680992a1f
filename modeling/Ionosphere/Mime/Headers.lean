import Ionosphere.Lib.Search
import Ionosphere.MailAuth.Canon

/-! The header of a message: the scanners that look for its end and the records it is cut
into. Messages are strings with one character for each byte. -/
namespace Ionosphere.Mime

open Ionosphere.Js Ionosphere.Lib Ionosphere.MailAuth

def blankCrlf : Text := crlf ++ crlf
def blankLf : Text := ['\n', '\n']
def blankCr : Text := ['\r', '\r']

structure HeaderBody where
  headerText : Text
  bodyText : Text

/-- One turn of the loop over the separators, with `sepIndex` and `sepLen`. -/
def closer (str : Text) (found : Option (Nat × Nat)) (sep : Text) : Option (Nat × Nat) :=
  match Search.indexOf sep str, found with
  | none, found => found
  | some idx, none => some (idx, sep.length)
  | some idx, some (sepIndex, sepLen) =>
    if idx < sepIndex then some (idx, sep.length) else some (sepIndex, sepLen)

def splitHeaderBody (str : Text) : HeaderBody :=
  match [blankCrlf, blankLf, blankCr].foldl (closer str) none with
  | none => ⟨str, []⟩
  | some (sepIndex, sepLen) => ⟨str.take sepIndex, str.drop (sepIndex + sepLen)⟩

/-- The scan of a part: only what starts before `stop` counts. -/
def indexOfWithin (bin needle : Text) (start stop : Nat) : Option Nat :=
  if stop ≤ start then none
  else
    let scanEnd := min (stop + needle.length - 1) bin.length
    let idx :=
      if (scanEnd - start) * 2 < bin.length - start then
        (Search.indexOf needle ((bin.take scanEnd).drop start)).map (start + ·)
      else (Search.indexOf needle (bin.drop start)).map (start + ·)
    idx.filter (· < stop)

structure BodyStart where
  headerEnd : Nat
  bodyStart : Nat

def findBodyStart (bin : Text) (start stop : Nat) : BodyStart :=
  let sep := (indexOfWithin bin blankCrlf start stop).map (·, 4)
  let sep :=
    match indexOfWithin bin blankLf start stop, sep with
    | none, sep => sep
    | some lf, none => some (lf, 2)
    | some lf, some (crlf, len) => if lf < crlf then some (lf, 2) else some (crlf, len)
  match sep with
  | none => ⟨stop, stop⟩
  | some (sep, len) => ⟨sep, min (sep + len) stop⟩

def headerBlockOf (raw : Bytes) : Text :=
  let bin := latin1Decode raw
  match [blankCrlf, blankLf, blankCr].findSome? fun sep => Search.indexOf sep bin with
  | none => bin
  | some i => bin.take i

structure HeaderRecord where
  raw : Text
  unfolded : Text
  name : Option Text

/-- `FIELD_NAME_RE`. -/
def isToken (name : Text) : Bool := !name.isEmpty && name.all isFieldNameChar

def headerFieldName (u : CaseMap) (unfolded : Text) : Option Text :=
  match splitFirst ':' unfolded with
  | none => none
  | some (front, _) =>
    if front = [] then none
    else
      let name := toLowerCase u (trim front)
      if isToken name then some name else none

def cutLines : Text → List (Text × Text)
  | [] => []
  | '\r' :: '\n' :: s => ([], crlf) :: cutLines s
  | '\r' :: s => ([], ['\r']) :: cutLines s
  | '\n' :: s => ([], ['\n']) :: cutLines s
  | c :: s =>
    match cutLines s with
    | [] => [([c], [])]
    | (content, eol) :: lines => (c :: content, eol) :: lines

/-- `raw` and `unfolded` of the records so far. -/
def addPart (parts : List (Text × Text)) (line : Text × Text) : List (Text × Text) :=
  if isContinuation line.1 && !parts.isEmpty then
    let last := parts.getLastD ([], [])
    parts.dropLast ++ [(last.1 ++ (line.1 ++ line.2), last.2 ++ line.1)]
  else parts ++ [(line.1 ++ line.2, line.1)]

def splitHeaderRecords (u : CaseMap) (headerText : Text) : List HeaderRecord :=
  ((cutLines headerText).foldl addPart []).map fun p => ⟨p.1, p.2, headerFieldName u p.2⟩

end Ionosphere.Mime
