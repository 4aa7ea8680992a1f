import Ionosphere.Sieve.Parser

/-! The grammar of Sieve scripts: how syntax trees are written as tokens, and that the parser
takes the tokens of a script and no others. A list of one string is written with or without its
brackets; nothing else is free. Beside it stand the tokens on which tests nest too deep. -/
namespace Ionosphere.Sieve

open Ionosphere.Js

def listed : List Text → List Lexeme
  | [] => []
  | v :: vs => .string v :: vs.flatMap fun v => [.mark ',', .string v]

inductive ArgWritten : SieveArg → List Lexeme → Prop
  | tag (name : Text) : ArgWritten (.tag name) [.tag name]
  | number (value : Js.Num) : ArgWritten (.number value) [.number value]
  | string (value : Text) : ArgWritten (.strings [value]) [.string value]
  | strings (values : List Text) :
    ArgWritten (.strings values) (.mark '[' :: (listed values ++ [Lexeme.mark ']']))

inductive ArgsWritten : List SieveArg → List Lexeme → Prop
  | nil : ArgsWritten [] []
  | cons {arg : SieveArg} {args : List SieveArg} {ts us : List Lexeme}
    (h : ArgWritten arg ts) (hs : ArgsWritten args us) : ArgsWritten (arg :: args) (ts ++ us)

mutual

inductive TestWritten : SieveTest → List Lexeme → Prop
  | plain {name : Text} {args : List SieveArg} {ts : List Lexeme}
    (hlist : name ∉ TEST_WITH_SUBTESTS) (hinner : name ∉ TEST_WITH_SUBTEST)
    (h : ArgsWritten args ts) : TestWritten (.mk name args []) (.identifier name :: ts)
  | inner {name : Text} {test : SieveTest} {ts : List Lexeme}
    (hlist : name ∉ TEST_WITH_SUBTESTS) (hinner : name ∈ TEST_WITH_SUBTEST)
    (h : TestWritten test ts) : TestWritten (.mk name [] [test]) (.identifier name :: ts)
  | none {name : Text} (hlist : name ∈ TEST_WITH_SUBTESTS) :
    TestWritten (.mk name [] []) [.identifier name, .mark '(', .mark ')']
  | list {name : Text} {test : SieveTest} {tests : List SieveTest} {ts us : List Lexeme}
    (hlist : name ∈ TEST_WITH_SUBTESTS) (h : TestWritten test ts) (hs : MoreWritten tests us) :
    TestWritten (.mk name [] (test :: tests))
      (.identifier name :: .mark '(' :: (ts ++ (us ++ [Lexeme.mark ')'])))

/-- Tests with a comma before each. -/
inductive MoreWritten : List SieveTest → List Lexeme → Prop
  | nil : MoreWritten [] []
  | cons {test : SieveTest} {tests : List SieveTest} {ts us : List Lexeme}
    (h : TestWritten test ts) (hs : MoreWritten tests us) :
    MoreWritten (test :: tests) (.mark ',' :: (ts ++ us))

end

/-- The test of a command, where the grammar has one. -/
inductive ConditionWritten (name : Text) : Option SieveTest → List Lexeme → Prop
  | none (hname : name ∉ CONTROL_WITH_TEST) : ConditionWritten name none []
  | some {test : SieveTest} {ts : List Lexeme} (hname : name ∈ CONTROL_WITH_TEST)
    (h : TestWritten test ts) : ConditionWritten name (some test) ts

mutual

/-- A command with at most so many blocks one in the other. -/
inductive CommandWritten : Nat → SieveCommand → List Lexeme → Prop
  | simple {depth : Nat} {name : Text} {args : List SieveArg} {test : Option SieveTest}
    {ts us : List Lexeme} (ha : ArgsWritten args ts) (ht : ConditionWritten name test us) :
    CommandWritten depth (.mk name args test none)
      (.identifier name :: (ts ++ (us ++ [Lexeme.mark ';'])))
  | block {depth : Nat} {name : Text} {args : List SieveArg} {test : Option SieveTest}
    {cmds : List SieveCommand} {ts us vs : List Lexeme} (hname : name ∈ CONTROL_WITH_BLOCK)
    (ha : ArgsWritten args ts) (ht : ConditionWritten name test us)
    (hb : CommandsWritten depth cmds vs) :
    CommandWritten (depth + 1) (.mk name args test (some cmds))
      (.identifier name :: (ts ++ (us ++ Lexeme.mark '{' :: (vs ++ [Lexeme.mark '}']))))

inductive CommandsWritten : Nat → List SieveCommand → List Lexeme → Prop
  | nil {depth : Nat} : CommandsWritten depth [] []
  | cons {depth : Nat} {cmd : SieveCommand} {cmds : List SieveCommand} {ts us : List Lexeme}
    (h : CommandWritten depth cmd ts) (hs : CommandsWritten depth cmds us) :
    CommandsWritten depth (cmd :: cmds) (ts ++ us)

end

/-- No further argument begins here. -/
def NoArg (us : List Lexeme) : Prop :=
  match us.head? with
  | some (.tag _) | some (.number _) | some (.string _) => False
  | some (.mark m) => m ≠ '['
  | _ => True

mutual

/-- Tokens that begin a test in which tests nest deeper than so many calls. -/
inductive DeepTest : Nat → List Lexeme → Prop
  | called (ts : List Lexeme) : DeepTest 0 ts
  | inner {stack : Nat} {name : Text} {ts : List Lexeme} (hlist : name ∉ TEST_WITH_SUBTESTS)
    (hinner : name ∈ TEST_WITH_SUBTEST) (h : DeepTest stack ts) :
    DeepTest (stack + 1) (.identifier name :: ts)
  | first {stack : Nat} {name : Text} {ts : List Lexeme} (hlist : name ∈ TEST_WITH_SUBTESTS)
    (hsome : ts.head? ≠ some (.mark ')')) (h : DeepTest stack ts) :
    DeepTest (stack + 1) (.identifier name :: .mark '(' :: ts)
  | later {stack : Nat} {name : Text} {test : SieveTest} {ts us : List Lexeme}
    (hlist : name ∈ TEST_WITH_SUBTESTS) (ht : TestWritten test ts) (h : DeepMore stack us) :
    DeepTest (stack + 1) (.identifier name :: .mark '(' :: (ts ++ us))

inductive DeepMore : Nat → List Lexeme → Prop
  | first {stack : Nat} {ts : List Lexeme} (h : DeepTest stack ts) :
    DeepMore stack (.mark ',' :: ts)
  | later {stack : Nat} {test : SieveTest} {ts us : List Lexeme} (ht : TestWritten test ts)
    (h : DeepMore stack us) : DeepMore stack (.mark ',' :: (ts ++ us))

end

mutual

inductive DeepCommand (stack : Nat) : Nat → List Lexeme → Prop
  | test {depth : Nat} {name : Text} {args : List SieveArg} {ts us : List Lexeme}
    (ha : ArgsWritten args ts) (hend : NoArg us) (hname : name ∈ CONTROL_WITH_TEST)
    (h : DeepTest stack us) : DeepCommand stack depth (.identifier name :: (ts ++ us))
  | block {depth : Nat} {name : Text} {args : List SieveArg} {test : Option SieveTest}
    {ts us vs : List Lexeme} (hname : name ∈ CONTROL_WITH_BLOCK) (ha : ArgsWritten args ts)
    (ht : ConditionWritten name test us) (h : DeepCommands stack depth vs) :
    DeepCommand stack (depth + 1) (.identifier name :: (ts ++ (us ++ Lexeme.mark '{' :: vs)))

inductive DeepCommands (stack : Nat) : Nat → List Lexeme → Prop
  | first {depth : Nat} {ts : List Lexeme} (h : DeepCommand stack depth ts) :
    DeepCommands stack depth ts
  | later {depth : Nat} {cmd : SieveCommand} {ts us : List Lexeme}
    (hcmd : CommandWritten depth cmd ts) (h : DeepCommands stack depth us) :
    DeepCommands stack depth (ts ++ us)

end

/-- What does not stop for want of fuel, and for want of stack only if `deep`. -/
def Ends {ρ : Type} (deep : Prop) : Except Stop ρ → Prop
  | .ok _ => True
  | .error (.thrown _) => True
  | .error .rangeError => deep
  | .error .fuel => False

theorem Ends.imp {ρ : Type} {r : Except Stop ρ} {p q : Prop} (hr : Ends p r) (h : p → q) :
    Ends q r := by
  cases r with
  | ok a => trivial
  | error stop =>
    cases stop with
    | thrown e => trivial
    | rangeError => exact h hr
    | fuel => exact hr

def Cursor.lexemes (c : Cursor) : List Lexeme := c.rest.map Token.lexeme

section

variable {α β : Type} {x : Parse α} {f : α → Parse β} {c c' : Cursor} {a : α} {b : β}
  {l : Lexeme} {ls : List Lexeme} {type : Text} {value : Lexeme → Option α} {m : Char}
  {stop : Stop} {deep : Prop}

theorem Cursor.length_lexemes (c : Cursor) : c.lexemes.length = c.rest.length := List.length_map _

theorem bind_of_ok (h : x c = .ok (a, c')) : (x >>= f) c = f a c' := by
  change Parse.bind x f c = f a c'
  rw [Parse.bind, h]

theorem bind_of_error (h : x c = .error stop) : (x >>= f) c = .error stop := by
  change Parse.bind x f c = _
  rw [Parse.bind, h]

theorem exists_of_bind_ok (h : (x >>= f) c = .ok (b, c')) :
    ∃ a d, x c = .ok (a, d) ∧ f a d = .ok (b, c') := by
  change Parse.bind x f c = _ at h
  rw [Parse.bind] at h
  cases hx : x c with
  | error e =>
    rw [hx] at h
    cases h
  | ok p =>
    rw [hx] at h
    exact ⟨p.1, p.2, rfl, h⟩

theorem Ends.bind (hx : Ends deep (x c)) (hf : ∀ a d, x c = .ok (a, d) → Ends deep (f a d)) :
    Ends deep ((x >>= f) c) := by
  cases h : x c with
  | error stop =>
    rw [h] at hx
    rw [bind_of_error h]
    cases stop <;> exact hx
  | ok p =>
    rw [bind_of_ok h]
    exact hf p.1 p.2 h

theorem peek_apply (c : Cursor) : peek c = .ok (c.lexemes.head?, c) := by
  rw [peek, Cursor.lexemes, List.head?_map]

theorem next_of_cons (h : c.lexemes = l :: ls) :
    ∃ t d, next c = .ok (t, d) ∧ t.lexeme = l ∧ d.lexemes = ls := by
  cases hrest : c.rest with
  | nil =>
    rw [Cursor.lexemes, hrest] at h
    cases h
  | cons t rest =>
    rw [Cursor.lexemes, hrest] at h
    obtain ⟨hl, hls⟩ := List.cons.inj h
    exact ⟨t, ⟨t.pos, rest⟩, by rw [next, hrest], hl, hls⟩

theorem next_ok {t : Token} (h : next c = .ok (t, c')) : c.lexemes = t.lexeme :: c'.lexemes := by
  cases hrest : c.rest with
  | nil =>
    rw [next, hrest] at h
    cases h
  | cons u rest =>
    rw [next, hrest] at h
    cases h
    rw [Cursor.lexemes, hrest]
    rfl

theorem next_ends : Ends deep (next c) := by
  rw [next]
  cases c.rest <;> trivial

theorem expect_of_cons (h : c.lexemes = l :: ls) (hv : value l = some a) :
    ∃ d, expect type value c = .ok (a, d) ∧ d.lexemes = ls := by
  obtain ⟨t, d, hnext, rfl, hls⟩ := next_of_cons h
  refine ⟨d, ?_, hls⟩
  rw [expect, bind_of_ok hnext]
  simp only [hv]
  rfl

theorem expect_ok (h : expect type value c = .ok (a, c')) :
    ∃ l, value l = some a ∧ c.lexemes = l :: c'.lexemes := by
  obtain ⟨t, d, hnext, h⟩ := exists_of_bind_ok h
  cases hv : value t.lexeme with
  | none =>
    rw [hv] at h
    cases h
  | some b =>
    rw [hv] at h
    cases h
    exact ⟨t.lexeme, hv, next_ok hnext⟩

theorem expect_ends : Ends deep (expect type value c) := by
  refine .bind next_ends fun t d _ => ?_
  cases value t.lexeme <;> trivial

theorem expectIdentifier_of_cons {name : Text} (h : c.lexemes = .identifier name :: ls) :
    ∃ d, expectIdentifier c = .ok (name, d) ∧ d.lexemes = ls := expect_of_cons h rfl

theorem expectString_of_cons {v : Text} (h : c.lexemes = .string v :: ls) :
    ∃ d, expectString c = .ok (v, d) ∧ d.lexemes = ls := expect_of_cons h rfl

theorem expectMark_of_cons (h : c.lexemes = .mark m :: ls) :
    ∃ d, expectMark m c = .ok ((), d) ∧ d.lexemes = ls := expect_of_cons h (if_pos rfl)

theorem expectIdentifier_ok {name : Text} (h : expectIdentifier c = .ok (name, c')) :
    c.lexemes = .identifier name :: c'.lexemes := by
  obtain ⟨l, hv, hl⟩ := expect_ok h
  cases l with
  | identifier v =>
    cases hv
    exact hl
  | _ => cases hv

theorem expectString_ok {v : Text} (h : expectString c = .ok (v, c')) :
    c.lexemes = .string v :: c'.lexemes := by
  obtain ⟨l, hv, hl⟩ := expect_ok h
  cases l with
  | string v =>
    cases hv
    exact hl
  | _ => cases hv

theorem expectMark_ok {u : Unit} (h : expectMark m c = .ok (u, c')) :
    c.lexemes = .mark m :: c'.lexemes := by
  obtain ⟨l, hv, hl⟩ := expect_ok h
  by_cases hm : l = .mark m
  · rw [hl, hm]
  · rw [if_neg hm] at hv
    cases hv

end

end Ionosphere.Sieve
