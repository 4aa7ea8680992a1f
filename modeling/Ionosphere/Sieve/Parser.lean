import Ionosphere.Sieve.Lexer

/-! The parser of Sieve scripts, by recursive descent. Each call of a production and each turn
of a loop takes one unit of fuel. `stack` is how many calls of `parseTest` the stack holds, one in
the other: blocks are limited, tests are not. -/
namespace Ionosphere.Sieve

open Ionosphere.Js

inductive SieveArg where
  | tag (name : Text)
  | strings (values : List Text)
  | number (value : Js.Num)
deriving DecidableEq

inductive SieveTest where
  | mk (name : Text) (args : List SieveArg) (tests : List SieveTest)

/-- `test` and `block` are `none` where the source has `null`. -/
inductive SieveCommand where
  | mk (name : Text) (args : List SieveArg) (test : Option SieveTest)
    (block : Option (List SieveCommand))

def CONTROL_WITH_TEST : List Text := ["if".toList, "elsif".toList]
def CONTROL_WITH_BLOCK : List Text := ["if".toList, "elsif".toList, "else".toList]
def TEST_WITH_SUBTESTS : List Text := ["allof".toList, "anyof".toList]
def TEST_WITH_SUBTEST : List Text := ["not".toList]

def MAX_BLOCK_DEPTH : Nat := 64

/-- The tokens that are left, and the position of the last one taken. -/
structure Cursor where
  last : Nat
  rest : List Token

def Lexeme.type : Lexeme → Text
  | .identifier _ => "identifier".toList
  | .tag _ => "tag".toList
  | .number _ => "number".toList
  | .string _ => "string".toList
  | .mark c => [c]

abbrev Parse (α : Type) : Type := Cursor → Except Stop (α × Cursor)

def Parse.bind {α β : Type} (x : Parse α) (f : α → Parse β) : Parse β := fun c =>
  match x c with
  | .error e => .error e
  | .ok (a, c) => f a c

instance : Monad Parse where
  pure a := fun c => .ok (a, c)
  bind := Parse.bind

def peek : Parse (Option Lexeme) := fun c => .ok (c.rest.head?.map Token.lexeme, c)

def peekPos : Parse Nat := fun c => .ok ((c.rest.head?.map Token.pos).getD 0, c)

def next : Parse Token := fun c =>
  match c.rest with
  | [] => syntaxError "unexpected end of script".toList c.last
  | t :: rest => .ok (t, ⟨t.pos, rest⟩)

def fail {α : Type} (message : Text) (pos : Nat) : Parse α := fun _ => syntaxError message pos

/-- `expect`, for a type and what its tokens hold. -/
def expect {α : Type} (type : Text) (value : Lexeme → Option α) : Parse α := do
  let t ← next
  match value t.lexeme with
  | some a => pure a
  | none =>
    fail ("expected '".toList ++ type ++ "', got '".toList ++ t.lexeme.type ++ "'".toList) t.pos

def expectIdentifier : Parse Text :=
  expect "identifier".toList fun | .identifier v => some v | _ => none

def expectString : Parse Text := expect "string".toList fun | .string v => some v | _ => none

def expectMark (m : Char) : Parse Unit := expect [m] fun l => if l = .mark m then some () else none

def outOfFuel {α : Type} : Parse α := fun _ => .error .fuel

def outOfStack {α : Type} : Parse α := fun _ => .error .rangeError

def items {α : Type} (close : Char) (first : Parse α) (more : Parse (List α)) :
    Parse (List α) := do
  if (← peek) = some (.mark close) then pure []
  else do
    let value ← first
    let values ← more
    pure (value :: values)

/-- The turns of the loop over `,`. -/
def moreStrings : Nat → Parse (List Text)
  | 0 => outOfFuel
  | fuel + 1 => do
    if (← peek) = some (.mark ',') then
      let _ ← next
      let value ← expectString
      let values ← moreStrings fuel
      pure (value :: values)
    else pure []

def parseStringList (fuel : Nat) : Parse (List Text) := do
  expectMark '['
  let out ← items ']' expectString (moreStrings fuel)
  expectMark ']'
  pure out

def parseArgs : Nat → Parse (List SieveArg)
  | 0 => outOfFuel
  | fuel + 1 => do
    match ← peek with
    | some (.tag name) =>
      let _ ← next
      let args ← parseArgs fuel
      pure (.tag name :: args)
    | some (.number value) =>
      let _ ← next
      let args ← parseArgs fuel
      pure (.number value :: args)
    | some (.string value) =>
      let _ ← next
      let args ← parseArgs fuel
      pure (.strings [value] :: args)
    | some (.mark m) =>
      if m = '[' then
        let values ← parseStringList fuel
        let args ← parseArgs fuel
        pure (.strings values :: args)
      else pure []
    | _ => pure []

mutual

def parseTest : Nat → Nat → Parse SieveTest
  | 0, _ => outOfFuel
  | _ + 1, 0 => outOfStack
  | fuel + 1, stack + 1 => do
    let name ← expectIdentifier
    if name ∈ TEST_WITH_SUBTESTS then
      expectMark '('
      let tests ← items ')' (parseTest fuel stack) (moreTests fuel stack)
      expectMark ')'
      pure (.mk name [] tests)
    else if name ∈ TEST_WITH_SUBTEST then
      let inner ← parseTest fuel stack
      pure (.mk name [] [inner])
    else
      let args ← parseArgs fuel
      pure (.mk name args [])

/-- The turns of the loop over `,` in `parseTestList`. -/
def moreTests : Nat → Nat → Parse (List SieveTest)
  | 0, _ => outOfFuel
  | fuel + 1, stack => do
    if (← peek) = some (.mark ',') then
      let _ ← next
      let test ← parseTest fuel stack
      let tests ← moreTests fuel stack
      pure (test :: tests)
    else pure []

end

section

variable (stack : Nat)

def parseCondition (fuel : Nat) (name : Text) : Parse (Option SieveTest) := do
  if name ∈ CONTROL_WITH_TEST then
    let test ← parseTest fuel stack
    pure (some test)
  else pure none

mutual

def parseCommands : Nat → Nat → Parse (List SieveCommand)
  | 0, _ => outOfFuel
  | fuel + 1, depth => do
    match ← peek with
    | none => pure []
    | some l =>
      if l = .mark '}' then pure []
      else
        let cmd ← parseCommand fuel depth
        let cmds ← parseCommands fuel depth
        pure (cmd :: cmds)

def parseCommand : Nat → Nat → Parse SieveCommand
  | 0, _ => outOfFuel
  | fuel + 1, depth => do
    let name ← expectIdentifier
    let args ← parseArgs fuel
    let test ← parseCondition stack fuel name
    if (← peek) = some (.mark '{') then
      let pos ← peekPos
      if name ∉ CONTROL_WITH_BLOCK then
        fail ("'".toList ++ name ++ "' cannot have a block".toList) pos
      else
        let _ ← next
        let pos ← peekPos
        if MAX_BLOCK_DEPTH < depth + 1 then
          fail ("block nesting too deep (max ".toList ++ natText MAX_BLOCK_DEPTH ++ ")".toList) pos
        else
          let block ← parseCommands fuel (depth + 1)
          expectMark '}'
          pure (.mk name args test (some block))
    else
      expectMark ';'
      pure (.mk name args test none)

end

def parseSieve (src : Text) : Except Stop (List SieveCommand) :=
  match tokenize src with
  | .error e => .error e
  | .ok toks => (parseCommands stack (2 * toks.length + 2) 0 ⟨0, toks⟩).map Prod.fst

end

end Ionosphere.Sieve
