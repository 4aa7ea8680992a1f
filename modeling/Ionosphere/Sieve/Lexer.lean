import Ionosphere.Js.Number

/-! The tokens of a Sieve script. A number token carries the number that its text reads back as.
The scanner holds the text that is left; a place in the script is counted in UTF-16 units. -/
namespace Ionosphere.Sieve

open Ionosphere.Js

/-- What a token is, with its value. The punctuation marks are their own type. -/
inductive Lexeme where
  | identifier (value : Text)
  | tag (value : Text)
  | number (value : Js.Num)
  | string (value : Text)
  | mark (c : Char)
deriving DecidableEq

structure Token where
  lexeme : Lexeme
  pos : Nat
deriving DecidableEq

structure SieveSyntaxError where
  message : Text
  pos : Nat
deriving DecidableEq

/-- Why there is no result. `fuel` is not the program's: its loops all end. -/
inductive Stop where
  | thrown (e : SieveSyntaxError)
  /-- The stack holds no further call. -/
  | rangeError
  | fuel
deriving DecidableEq

def syntaxError {α : Type} (message : Text) (pos : Nat) : Except Stop α :=
  .error (.thrown ⟨message ++ " (pos ".toList ++ natText pos ++ ")".toList, pos⟩)

def isIdentStart (c : Char) : Bool :=
  (65 ≤ c.toNat && c.toNat ≤ 90) || (97 ≤ c.toNat && c.toNat ≤ 122) || c = '_'

def isIdentChar (c : Char) : Bool := isIdentStart c || isDigit c || c = '.'

def isBlank (c : Char) : Bool := c = ' ' || c = '\t' || c = '\r' || c = '\n'

def isMark (c : Char) : Bool := "(){}[],;".toList.contains c

def unitLength (s : Text) : Nat := (s.map fun c => if c.toNat < 0x10000 then 1 else 2).sum

def afterComment : Text → Option Text
  | [] => none
  | '*' :: '/' :: s => some s
  | _ :: s => afterComment s

def quoted : Text → Option (Text × Text)
  | [] => none
  | '"' :: s => some ([], s)
  | '\\' :: [] => none
  | '\\' :: c :: s => (quoted s).map fun p => (c :: p.1, p.2)
  | c :: s => (quoted s).map fun p => (c :: p.1, p.2)

/-- `line.replace(/\r$/, "")`. -/
def trimCr (line : Text) : Text := if line.getLast? = some '\r' then line.dropLast else line

def unstuffed (line : Text) : Text :=
  (if ['.', '.'].isPrefixOf line then line.tail else line) ++ ['\r', '\n']

/-- The lines of a multi-line string: what is left after its last one, or the first line that
no other follows. -/
def multiline (line : Text) : Text → Except Text (Text × Text)
  | [] => if trimCr line = ['.'] then .ok ([], []) else .error line
  | c :: s =>
    if c = '\n' then
      if trimCr line = ['.'] then .ok ([], s)
      else if s = [] then .error (line ++ ['\n'])
      else (multiline [] s).map fun p => (unstuffed (trimCr line) ++ p.1, p.2)
    else multiline (line ++ [c]) s

def unitOf (c : Char) : Option Nat :=
  if c = 'K' ∨ c = 'k' then some 1024
  else if c = 'M' ∨ c = 'm' then some (1024 * 1024)
  else if c = 'G' ∨ c = 'g' then some (1024 * 1024 * 1024)
  else none

/-- `Number(num) * mult` for a run of digits. -/
def scaled (num : Text) (mult : Nat) : Js.Num :=
  match number num with
  | .finite neg n scale => roundRat neg (Num.toNat (.finite neg n scale) * mult) 1
  | x => x

def hexText (n : Nat) : Text := (List.range 4).reverse.map fun i =>
  Nat.digitChar (n / 16 ^ i % 16)

/-- `JSON.stringify` of the first UTF-16 unit of a character. -/
def quotedUnit (c : Char) : Text :=
  let n := if c.toNat < 0x10000 then c.toNat else 0xd800 + (c.toNat - 0x10000) / 0x400
  let inner :=
    if n = 8 then ['\\', 'b']
    else if n = 12 then ['\\', 'f']
    else if n = 92 then ['\\', '\\']
    else if n < 32 ∨ 0x10000 ≤ c.toNat then '\\' :: 'u' :: hexText n
    else [c]
  '"' :: inner ++ ['"']

/-- One turn of the loop at a character: the token, if it makes one, and the text that is left. -/
def scan (start : Nat) (c : Char) (s : Text) : Except Stop (Option Lexeme × Text) :=
  if isBlank c then .ok (none, s)
  else if c = '#' then .ok (none, s.dropWhile (· ≠ '\n'))
  else if c = '/' ∧ s.head? = some '*' then
    match afterComment s.tail with
    | none => syntaxError "unterminated block comment".toList start
    | some rest => .ok (none, rest)
  else if isMark c then .ok (some (.mark c), s)
  else if c = ':' then
    let name := s.takeWhile isIdentChar
    if name = [] then syntaxError "empty tag".toList start
    else .ok (some (.tag name), s.dropWhile isIdentChar)
  else if isDigit c then
    let num := c :: s.takeWhile isDigit
    let rest := s.dropWhile isDigit
    match rest.head?.bind unitOf with
    | none => .ok (some (.number (scaled num 1)), rest)
    | some mult => .ok (some (.number (scaled num mult)), rest.tail)
  else if c = '"' then
    match quoted s with
    | none => syntaxError "unterminated string".toList start
    | some (value, rest) => .ok (some (.string value), rest)
  else if "text:".toList.isPrefixOf (c :: s) then
    let body := ((s.drop 4).dropWhile (· ≠ '\n')).tail
    match multiline [] body with
    | .error line =>
      syntaxError "unterminated multi-line string".toList
        (start + unitLength (c :: s) - unitLength line)
    | .ok (value, rest) => .ok (some (.string value), rest)
  else if isIdentStart c then
    .ok (some (.identifier (c :: s.takeWhile isIdentChar)), s.dropWhile isIdentChar)
  else syntaxError ("unexpected character ".toList ++ quotedUnit c) start

/-- The loop from a place on. `n` is the length of the script. -/
def tokenizeFrom (n : Nat) : Nat → Text → Except Stop (List Token)
  | _, [] => .ok []
  | 0, _ => .error .fuel
  | fuel + 1, c :: s =>
    match scan (n - unitLength (c :: s)) c s with
    | .error e => .error e
    | .ok (none, rest) => tokenizeFrom n fuel rest
    | .ok (some lexeme, rest) =>
      (tokenizeFrom n fuel rest).map fun toks => ⟨lexeme, n - unitLength (c :: s)⟩ :: toks

def tokenize (src : Text) : Except Stop (List Token) :=
  tokenizeFrom (unitLength src) src.length src

end Ionosphere.Sieve
