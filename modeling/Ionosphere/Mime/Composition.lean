import Ionosphere.Mime.Blank
import Ionosphere.Mime.Delimiters

/-! A tree of parts written out as a message, and what the parser makes of it. -/
namespace Ionosphere.Mime

open Ionosphere.Js Ionosphere.Lib Ionosphere.Core Ionosphere.MailAuth

mutual

/-- A part by the lines of its header and what its body holds. -/
inductive MimeTree where
  | leaf (header : List Text) (body : Text)
  | message (header : List Text) (inner : MimeTree)
  | multipart (header : List Text) (boundary : Text) (siblings : Siblings)

/-- The parts of a multipart, each with the padding of the delimiter in front of it. -/
inductive Siblings where
  | closing (padding : Text)
  | cons (padding : Text) (part : MimeTree) (rest : Siblings)

end

def headerBlock (header : List Text) : Text := header.flatMap (· ++ crlf) ++ crlf

mutual

def MimeTree.text : MimeTree → Text
  | .leaf header body => headerBlock header ++ body
  | .message header inner => headerBlock header ++ inner.text
  | .multipart header boundary siblings => headerBlock header ++ siblings.text boundary

def Siblings.text (boundary : Text) : Siblings → Text
  | .closing padding => delimiter boundary ++ (['-', '-'] ++ padding)
  | .cons padding part rest =>
    delimiter boundary ++ (padding ++ (crlf ++ (part.text ++ (crlf ++ rest.text boundary))))

end

variable (u : CaseMap) (cs : Charsets)

def headersOf (header : List Text) : Headers := parseHeaders u cs (Pieces.glue '\r' '\n' header)

/-- The part with a header and a body that begins at a place, as a reader of the format sees it. -/
def partAt (header : List Text) (body : Text) (children : List MimePartInfo) (start : Nat) :
    MimePartInfo :=
  let bodyStart := start + (headerBlock header).length
  { infoOf u cs (headersOf u cs header) start bodyStart (bodyStart + body.length)
      (body.count '\n') with
    children := children }

mutual

def MimeTree.info (start : Nat) : MimeTree → MimePartInfo
  | .leaf header body => partAt u cs header body [] start
  | .message header inner =>
    partAt u cs header inner.text [inner.info (start + (headerBlock header).length)] start
  | .multipart header boundary siblings =>
    partAt u cs header (siblings.text boundary)
      (siblings.infos boundary (start + (headerBlock header).length)) start

def Siblings.infos (boundary : Text) (start : Nat) : Siblings → List MimePartInfo
  | .closing _ => []
  | .cons padding part rest =>
    let s := start + (delimiter boundary).length + padding.length + 2
    part.info s :: rest.infos boundary (s + part.text.length + 2)

end

def isBchar (c : Char) : Bool :=
  c.isAlphanum || c ∈ ['\'', '(', ')', '+', '_', ',', '-', '.', '/', ':', '=', '?', ' ']

structure ValidBoundary (boundary : Text) : Prop where
  length : 1 ≤ boundary.length ∧ boundary.length ≤ 70
  chars : ∀ c ∈ boundary, isBchar c
  last : boundary.getLast? ≠ some ' '

def Padding (padding : Text) : Prop := ∀ c ∈ padding, c = ' ' ∨ c = '\t'

instance (padding : Text) : Decidable (Padding padding) :=
  inferInstanceAs (Decidable (∀ c ∈ padding, c = ' ' ∨ c = '\t'))

def IsDelimiter (boundary line : Text) : Prop :=
  ∃ padding, Padding padding ∧
    (line = delimiter boundary ++ padding ∨ line = delimiter boundary ++ (['-', '-'] ++ padding))

def HeaderLines (header : List Text) : Prop := ∀ l ∈ header, l ≠ [] ∧ Plain l

instance (header : List Text) : Decidable (HeaderLines header) :=
  inferInstanceAs (Decidable (∀ l ∈ header, l ≠ [] ∧ ∀ c ∈ l, c ≠ '\r' ∧ c ≠ '\n'))

def typeOf (header : List Text) : ContentTypeInfo := contentTypeOf u cs (headersOf u cs header)

mutual

def MimeTree.Valid (enclosing : List Text) : MimeTree → Prop
  | .leaf header body =>
    HeaderLines header ∧ (typeOf u cs header).boundary = none ∧
      (typeOf u cs header).isMessage = false ∧
      ∀ line ∈ Pieces.split '\r' '\n' body, ∀ b ∈ enclosing, ¬ IsDelimiter b line
  | .message header inner =>
    HeaderLines header ∧ (typeOf u cs header).isMessage = true ∧ inner.Valid enclosing
  | .multipart header boundary siblings =>
    HeaderLines header ∧ (typeOf u cs header).boundary = some boundary ∧
      ValidBoundary boundary ∧ siblings.Valid (boundary :: enclosing)

def Siblings.Valid (enclosing : List Text) : Siblings → Prop
  | .closing padding => Padding padding
  | .cons padding part rest => Padding padding ∧ part.Valid enclosing ∧ rest.Valid enclosing

end

/-- A line that begins with a delimiter, whatever stands behind it on the line. -/
def Delimited (boundary s : Text) : Prop := ∃ i, Delimits s boundary 0 i

def Siblings.Undelimited (boundary : Text) : Siblings → Prop
  | .closing _ => True
  | .cons _ part rest => ¬ Delimited boundary part.text ∧ rest.Undelimited boundary

mutual

/-- No part without a header has a body, and no line of a part begins with a delimiter of a
multipart around it. -/
def MimeTree.Unmistaken : MimeTree → Prop
  | .leaf header body => header = [] → body = []
  | .message _ inner => inner.Unmistaken
  | .multipart _ boundary siblings => siblings.Undelimited boundary ∧ siblings.Unmistaken

def Siblings.Unmistaken : Siblings → Prop
  | .closing _ => True
  | .cons _ part rest => part.Unmistaken ∧ rest.Unmistaken

end

end Ionosphere.Mime
