import Ionosphere.Core.Limits
import Ionosphere.Mime.Fields

/-! The parts of a message and where they stand in it. A message is a string with one character
for each byte, so a place in the string is an offset of the message. -/
namespace Ionosphere.Mime

open Ionosphere.Js Ionosphere.Lib Ionosphere.Core

structure MimeDisposition where
  type : Text
  params : Params

/-- `stop` is the first place behind the part. -/
structure MimePartInfo where
  start : Nat
  bodyStart : Nat
  stop : Nat
  type : Text
  subtype : Text
  params : Params
  contentId : Option Text
  description : Option Text
  encoding : Text
  disposition : Option MimeDisposition
  size : Nat
  lines : Nat
  children : List MimePartInfo

/-- One budget for the whole tree. -/
structure PartBudget where
  remaining : Int
  exceeded : Bool

theorem indexOfWithin_bounds {bin needle : Text} {start stop i : Nat}
    (h : indexOfWithin bin needle start stop = some i) : start ≤ i ∧ i < stop := by
  rw [indexOfWithin] at h
  split_ifs at h with hle
  obtain ⟨hidx, hlt⟩ := Option.filter_eq_some_iff.mp h
  refine ⟨?_, of_decide_eq_true hlt⟩
  split_ifs at hidx
  all_goals
    obtain ⟨j, -, hj⟩ := Option.map_eq_some_iff.mp hidx
    omega

def delimiter (boundary : Text) : Text := '-' :: '-' :: boundary

theorem length_delimiter (boundary : Text) :
    (delimiter boundary).length = boundary.length + 2 := rfl

/-- The line end in front of a delimiter belongs to the delimiter. -/
def partEnd (bin : Text) (partStart idx : Nat) : Nat :=
  let e := if partStart < idx ∧ bin[idx - 1]? = some '\n' then idx - 1 else idx
  if partStart < e ∧ bin[e - 1]? = some '\r' then e - 1 else e

/-- The loop over the delimiters, with `room` ranges still to be had. -/
def splitLoop (bin boundary : Text) (start stop cursor : Nat) (partStart : Option Nat)
    (room : Nat) : List (Nat × Nat) :=
  if room = 0 then []
  else
    match h : indexOfWithin bin (delimiter boundary) cursor stop with
    | none =>
      -- the last delimiter is missing, or there is none at all
      match partStart with
      | none => []
      | some s => if s < stop then [(s, stop)] else []
    | some idx =>
      have := indexOfWithin_bounds h
      let afterIdx := idx + (delimiter boundary).length
      if idx ≠ start ∧ bin[idx - 1]? ≠ some '\n' then
        splitLoop bin boundary start stop afterIdx partStart room
      else
        let ranges := partStart.toList.map fun s => (s, partEnd bin s idx)
        if ['-', '-'].isPrefixOf (bin.drop afterIdx) then ranges
        else
          match hnl : indexOfWithin bin ['\n'] afterIdx stop with
          | none => ranges
          | some nl =>
            have := indexOfWithin_bounds hnl
            ranges ++ splitLoop bin boundary start stop (nl + 1) (some (nl + 1))
              (room - ranges.length)
termination_by stop - cursor
decreasing_by
  · simp only [length_delimiter]
    omega
  · have := length_delimiter boundary
    omega

def splitParts (bin boundary : Text) (start stop maxRanges : Nat) : List (Nat × Nat) :=
  splitLoop bin boundary start stop start none maxRanges

variable (u : CaseMap) (cs : Charsets)

def countLines (bin : Text) (start stop : Nat) : Nat :=
  ((bin.take stop).drop start).count '\n'

def readHeader (bin : Text) (start headerEnd : Nat) : Headers :=
  parseHeaders u cs ((bin.take headerEnd).drop start)

def contentTypeOf (headers : Headers) : ContentTypeInfo :=
  parseContentType u cs (firstHeader headers "content-type".toList)

def dispositionOf (headers : Headers) : Option MimeDisposition :=
  match parseContentDisposition u cs (firstHeader headers "content-disposition".toList) with
  | none => none
  | some dispo =>
    if dispo.type = [] then none
    else some ⟨dispo.type, dispo.filename.toList.map fun name => ("filename".toList, name)⟩

def encodingOf (headers : Headers) : Text :=
  let encoding := toLowerCase u (trim
    ((firstHeader headers "content-transfer-encoding".toList).getD "7bit".toList))
  if encoding = [] then "7bit".toList else encoding

def infoOf (headers : Headers) (start bodyStart stop lines : Nat) : MimePartInfo :=
  let ct := contentTypeOf u cs headers
  { start := start
    bodyStart := bodyStart
    stop := stop
    type := ct.type
    subtype := ct.subtype
    params := ct.params
    contentId := firstHeader headers "content-id".toList
    description := firstHeader headers "content-description".toList
    encoding := encodingOf u headers
    disposition := dispositionOf u cs headers
    size := stop - bodyStart
    lines := lines
    children := [] }

def partInfo (bin : Text) (start stop : Nat) : MimePartInfo :=
  let found := findBodyStart bin start stop
  infoOf u cs (readHeader u cs bin start found.headerEnd) start found.bodyStart stop
    (countLines bin found.bodyStart stop)

def MimePartInfo.contentType (p : MimePartInfo) : ContentTypeInfo := ⟨p.type, p.subtype, p.params⟩

def ContentTypeInfo.boundary (ct : ContentTypeInfo) : Option Text :=
  if ct.type = "multipart".toList then
    (Assoc.get ct.params "boundary".toList).filter (!·.isEmpty)
  else none

def ContentTypeInfo.isMessage (ct : ContentTypeInfo) : Bool :=
  ct.type = "message".toList && ct.subtype = "rfc822".toList

def PartBudget.take (budget : PartBudget) : PartBudget :=
  ⟨budget.remaining - 1, budget.exceeded || budget.remaining - 1 < 0⟩

/-- The loop over the ranges of a multipart, which stops once the budget is exceeded. -/
def parseRanges (parse : Nat → Nat → PartBudget → MimePartInfo × PartBudget) :
    List (Nat × Nat) → PartBudget → List MimePartInfo × PartBudget
  | [], budget => ([], budget)
  | (s, e) :: ranges, budget =>
    if budget.exceeded then ([], budget)
    else
      let child := parse s e budget
      let rest := parseRanges parse ranges child.2
      (child.1 :: rest.1, rest.2)

/-- The first argument counts the levels that are left: `MAX_MIME_DEPTH - depth`. -/
def parseRange (bin : Text) : Nat → Nat → Nat → PartBudget → MimePartInfo × PartBudget
  | 0, start, stop, budget => (partInfo u cs bin start stop, budget.take)
  | levels + 1, start, stop, budget =>
    let budget := budget.take
    let part := partInfo u cs bin start stop
    if budget.exceeded then (part, budget)
    else
      match part.contentType.boundary with
      | some boundary =>
        let ranges := splitParts bin boundary part.bodyStart stop (budget.remaining + 1).toNat
        let budget :=
          if budget.remaining < ranges.length then { budget with exceeded := true } else budget
        let found := parseRanges (parseRange bin levels) ranges budget
        ({ part with children := found.1 }, found.2)
      | none =>
        if part.contentType.isMessage then
          let child := parseRange bin levels part.bodyStart stop budget
          ({ part with children := [child.1] }, child.2)
        else (part, budget)

def collapsedPart (bin : Text) : MimePartInfo :=
  { start := 0
    bodyStart := 0
    stop := bin.length
    type := "text".toList
    subtype := "plain".toList
    params := []
    contentId := none
    description := none
    encoding := "7bit".toList
    disposition := none
    size := bin.length
    lines := countLines bin 0 bin.length
    children := [] }

def parseStructure (raw : Bytes) : MimePartInfo :=
  let bin := latin1Decode raw
  let root := parseRange u cs bin maxMimeDepth 0 bin.length ⟨maxMimeParts, false⟩
  if root.2.exceeded then collapsedPart bin else root.1

end Ionosphere.Mime
