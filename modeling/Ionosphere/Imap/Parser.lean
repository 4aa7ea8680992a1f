import Ionosphere.Imap.Reader

/-! The command parser: a logical line to a tag, a name and argument values. The
cursor of the source is the list of characters and literals still to come. Lists and search keys
are taken to nest no deeper than the source's stack, which its recursion does not limit. -/
namespace Ionosphere.Imap

open Ionosphere.Js Ionosphere.Core

inductive ImapValue where
  | atom (value : Text)
  | quoted (value : Text)
  | literal (bytes : Bytes)
  | list (items : List ImapValue)

structure ParsedCommand where
  tag : Text
  name : Text
  args : List ImapValue

/-- The message of an `ImapParseError`. -/
abbrev ParseError := Text

inductive Item where
  | char (c : Char)
  | literal (bytes : Bytes)
  deriving DecidableEq

abbrev Cursor := List Item

def LinePart.items : LinePart → Cursor
  | .text t => t.map .char
  | .literal bytes => [.literal bytes]

def isAtomSpecial (c : Char) : Bool :=
  c = '(' || c = ')' || c = '{' || c = ' ' || c = '"' || c = '\\'

def isAtomChar (c : Char) : Bool :=
  !(decide (c.toNat ≤ 0x1f) || decide (c.toNat = 0x7f)) && !isAtomSpecial c

def skipSpaces : Cursor → Cursor
  | .char ' ' :: cur => skipSpaces cur
  | cur => cur

abbrev Rest (cur : Cursor) := { rest : Cursor // rest.length < cur.length }

def Rest.shift {cur : Cursor} (i : Item) (r : Rest cur) : Rest (i :: cur) :=
  ⟨r.1, Nat.lt_succ_of_lt r.2⟩

def parseQuoted : (cur : Cursor) → Except ParseError (Text × Rest cur)
  | [] => .error "unterminated quoted string".toList
  | .literal _ :: _ => .error "internal: nextChar on literal boundary".toList
  | .char '"' :: rest => .ok ([], ⟨rest, Nat.lt_succ_self _⟩)
  | .char '\\' :: .char e :: rest =>
    if e = '"' ∨ e = '\\' then
      match parseQuoted rest with
      | .ok (out, r) => .ok (e :: out, (r.shift (.char e)).shift (.char '\\'))
      | .error err => .error err
    else .error "invalid quoted-string escape".toList
  | .char '\\' :: .literal _ :: _ => .error "internal: nextChar on literal boundary".toList
  | [.char '\\'] => .error "invalid quoted-string escape".toList
  | .char c :: rest =>
    match parseQuoted rest with
    | .ok (out, r) => .ok (c :: out, r.shift (.char c))
    | .error err => .error err

def takeAtom : Cursor → Text × Cursor
  | .char c :: rest =>
    if isAtomChar c then
      let r := takeAtom rest
      (c :: r.1, r.2)
    else ([], .char c :: rest)
  | cur => ([], cur)

theorem takeAtom_length (cur : Cursor) :
    (takeAtom cur).1.length + (takeAtom cur).2.length = cur.length := by
  induction cur with
  | nil => rfl
  | cons i rest ih =>
    cases i with
    | literal b => simp [takeAtom]
    | char c =>
      simp only [takeAtom]
      split
      · simp only [List.length_cons]
        omega
      · simp

def parseAtom (cur : Cursor) : Except ParseError (Text × Rest cur) :=
  if h : (takeAtom cur).1 = [] then .error "expected atom".toList
  else .ok ((takeAtom cur).1, ⟨(takeAtom cur).2, by
    have hlen := takeAtom_length cur
    have hpos := List.length_pos_iff.mpr h
    omega⟩)

theorem skipSpaces_length (cur : Cursor) : (skipSpaces cur).length ≤ cur.length := by
  fun_induction skipSpaces cur with
  | case1 cur ih => simp only [List.length_cons]; omega
  | case2 => exact Nat.le_refl _

mutual

def parseValue (cur : Cursor) : Except ParseError (ImapValue × Rest cur) :=
  match cur with
  | [] => .error "unexpected end of command".toList
  | .literal bytes :: rest => .ok (.literal bytes, ⟨rest, Nat.lt_succ_self _⟩)
  | .char c :: rest =>
    if c = '"' then
      match parseQuoted rest with
      | .ok (value, r) => .ok (.quoted value, r.shift (.char c))
      | .error err => .error err
    else if c = '(' then
      match parseList [] rest with
      | .ok (items, r) => .ok (.list items, r.shift (.char c))
      | .error err => .error err
    else if c = '\\' then
      -- a flag: a backslash and an atom
      match parseAtom rest with
      | .ok (value, r) => .ok (.atom ('\\' :: value), r.shift (.char c))
      | .error err => .error err
    else
      match parseAtom (.char c :: rest) with
      | .ok (value, r) => .ok (.atom value, r)
      | .error err => .error err
termination_by 2 * cur.length

def parseList (items : List ImapValue) (cur : Cursor) :
    Except ParseError (List ImapValue × Rest cur) :=
  have hskip := skipSpaces_length cur
  match h : skipSpaces cur with
  | [] => .error "unterminated parenthesized list".toList
  | .char ')' :: rest => .ok (items, ⟨rest, by
      rw [h, List.length_cons] at hskip
      omega⟩)
  | i :: rest =>
    match parseValue (i :: rest) with
    | .error err => .error err
    | .ok (value, r) =>
      have hr : r.1.length < cur.length := by
        have := r.2
        rw [h] at hskip
        omega
      match parseList (items ++ [value]) r.1 with
      | .error err => .error err
      | .ok (items, r') => .ok (items, ⟨r'.1, Nat.lt_trans r'.2 hr⟩)
termination_by 2 * cur.length + 1
decreasing_by
  · rw [h] at hskip
    omega
  · omega

end

def parseValuesFrom (values : List ImapValue) (cur : Cursor) : Except ParseError (List ImapValue) :=
  match _h : skipSpaces cur with
  | [] => .ok values
  | i :: rest =>
    match parseValue (i :: rest) with
    | .error err => .error err
    | .ok (value, r) => parseValuesFrom (values ++ [value]) r.1
termination_by cur.length
decreasing_by
  have hskip := skipSpaces_length cur
  have hr := r.2
  rw [_h] at hskip
  omega

def parseValues (parts : List LinePart) : Except ParseError (List ImapValue) :=
  parseValuesFrom [] (parts.flatMap LinePart.items)

def parseCommand (u : CaseMap) (parts : List LinePart) : Except ParseError ParsedCommand :=
  match parseValues parts with
  | .error err => .error err
  | .ok (.atom tag :: rest) =>
    if tag.any fun c => c = '+' || c = '*' || c = '%' then .error "invalid tag".toList
    else
      match rest with
      | .atom name :: args => .ok ⟨tag, toUpperCase u name, args⟩
      | _ => .error "missing command name".toList
  | .ok _ => .error "missing command tag".toList

def valueText : ImapValue → Option Text
  | .atom value => some value
  | .quoted value => some value
  | .literal bytes => some (latin1Decode bytes)
  | .list _ => none

end Ionosphere.Imap
