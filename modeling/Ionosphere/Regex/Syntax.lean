import Ionosphere.Js.Text

/-! The patterns of the Sieve `:regex` test, and their parser. Strings are lists of UTF-16 code
units, as the source indexes them; the parser holds the units that are left. -/
namespace Ionosphere.Regex

open Ionosphere.Js

abbrev Units : Type := List UInt16

def unit (c : Char) : UInt16 := UInt16.ofNat c.toNat

def units (s : String) : Units := s.toList.map unit

def natUnits (n : Nat) : Units := (natText n).map unit

structure RegexSyntaxError where
  message : Units
  deriving DecidableEq

def MAX_PATTERN_CHARS : Nat := 4096

def MAX_REPEAT : Nat := 1000

abbrev Ranges : Type := List (UInt16 × UInt16)

/-- `{min,max}`, as the parser lets it through. -/
structure Bounds where
  min : Nat
  max : Option Nat
  ordered : ∀ m ∈ max, min ≤ m

def Bounds.star : Bounds := ⟨0, none, by simp⟩

def Bounds.plus : Bounds := ⟨1, none, by simp⟩

def Bounds.opt : Bounds := ⟨0, some 1, by simp⟩

/-- The syntax tree. An alternation has a first part. -/
inductive Node where
  | empty
  | char (ch : UInt16)
  | any
  | cls (negate : Bool) (ranges : Ranges)
  | bol
  | eol
  | cat (parts : List Node)
  | alt (first : Node) (rest : List Node)
  | repeated (node : Node) (bounds : Bounds)
  | group (node : Node) (index : Nat)

/-- `SHORTHAND[esc]`. -/
def shorthand (esc : UInt16) : Option (Bool × Ranges) :=
  let digit : Ranges := [(48, 57)]
  let word : Ranges := [(48, 57), (65, 90), (95, 95), (97, 122)]
  let space : Ranges := [(9, 13), (32, 32)]
  if esc = unit 'd' then some (false, digit)
  else if esc = unit 'D' then some (true, digit)
  else if esc = unit 'w' then some (false, word)
  else if esc = unit 'W' then some (true, word)
  else if esc = unit 's' then some (false, space)
  else if esc = unit 'S' then some (true, space)
  else none

/-- `CONTROL_ESCAPES[esc] ?? esc`. -/
def controlEscape (esc : UInt16) : UInt16 :=
  if esc = unit 'n' then 10
  else if esc = unit 'r' then 13
  else if esc = unit 't' then 9
  else if esc = unit 'f' then 12
  else if esc = unit 'v' then 11
  else if esc = unit '0' then 0
  else esc

structure ParserState where
  rest : Units
  groups : Nat

/-- Why parsing ends without a tree. The second is the end of the stack, which `parse` takes as
deep as the pattern needs it. -/
inductive Stop where
  | syntaxError (e : RegexSyntaxError)
  | outOfFuel

abbrev Parse (α : Type) : Type := Except Stop α

def syntaxError {α : Type} (message : Units) : Parse α := .error (.syntaxError ⟨message⟩)

def isDigit (u : UInt16) : Bool := unit '0' ≤ u && u ≤ unit '9'

/-- `Number(digits)`, which is only compared with numbers up to `MAX_REPEAT`. -/
def decimal (digits : Units) : Nat :=
  digits.foldl (fun acc u => acc * 10 + (u.toNat - (unit '0').toNat)) 0

/-- `/^(\d+)(?:(,)(\d*))?$/`. -/
def readBounds (body : Units) : Option (Nat × Option Nat) :=
  let first := body.takeWhile isDigit
  if first = [] then none
  else
    match body.dropWhile isDigit with
    | [] => some (decimal first, some (decimal first))
    | comma :: second =>
      if comma = unit ',' ∧ second.all isDigit then
        some (decimal first, if second = [] then none else some (decimal second))
      else none

def parseBounds (rest : Units) : Parse (Option (Bounds × Units)) :=
  match rest.tail.dropWhile (· ≠ unit '\x7d') with
  | [] => .ok none
  | _ :: behind =>
    match readBounds (rest.tail.takeWhile (· ≠ unit '\x7d')) with
    | none => .ok none
    | some (min, max) =>
      if MAX_REPEAT < min ∨ max.any (MAX_REPEAT < ·) then
        syntaxError (units "repetition count too large (max " ++ natUnits MAX_REPEAT ++ units ")")
      else if h : ∀ m ∈ max, min ≤ m then .ok (some (⟨min, max, h⟩, behind))
      else syntaxError (units "repetition bounds out of order")

def parseOperators : Nat → Node → Units → Parse (Node × Units)
  | 0, _, _ => .error .outOfFuel
  | fuel + 1, node, rest =>
    match rest with
    | [] => .ok (node, rest)
    | ch :: behind =>
      if ch = unit '*' then parseOperators fuel (.repeated node .star) behind
      else if ch = unit '+' then parseOperators fuel (.repeated node .plus) behind
      else if ch = unit '?' then parseOperators fuel (.repeated node .opt) behind
      else if ch = unit '\x7b' then do
        match ← parseBounds rest with
        | none => .ok (node, rest)
        | some (bounds, behind) => parseOperators fuel (.repeated node bounds) behind
      else .ok (node, rest)

def classEscape (rest : Units) : Parse (UInt16 × Units) :=
  match rest with
  | [] => syntaxError (units "trailing backslash in class")
  | esc :: behind => .ok (esc, behind)

def classHigh (hiCh : UInt16) (rest : Units) : Parse (UInt16 × Units) :=
  if hiCh = unit '\\' then do
    let (esc, behind) ← classEscape rest
    return (controlEscape esc, behind)
  else return (hiCh, rest)

/-- The range that begins at `lo`. -/
def classRange (lo : UInt16) (rest : Units) : Parse ((UInt16 × UInt16) × Units) :=
  match rest with
  | dash :: hiCh :: behind =>
    if dash = unit '-' ∧ hiCh ≠ unit ']' then do
      let (hi, behind) ← classHigh hiCh behind
      if hi < lo then syntaxError (units "character class range out of order")
      else pure ((lo, hi), behind)
    else .ok ((lo, lo), rest)
  | _ => .ok ((lo, lo), rest)

def classItems : Nat → Ranges → Units → Parse (Ranges × Units)
  | 0, _, _ => .error .outOfFuel
  | fuel + 1, ranges, rest =>
    match rest with
    | [] => syntaxError (units "unclosed character class")
    | ch :: behind =>
      if ch = unit ']' then .ok (ranges, behind)
      else if ch = unit '\\' then do
        let (esc, behind) ← classEscape behind
        match shorthand esc with
        | some (true, _) =>
          syntaxError (units "\\" ++ [esc] ++ units " inside a character class is not supported")
        | some (false, short) => classItems fuel (ranges ++ short) behind
        | none => do
          let (range, behind) ← classRange (controlEscape esc) behind
          classItems fuel (ranges ++ [range]) behind
      else do
        let (range, behind) ← classRange ch behind
        classItems fuel (ranges ++ [range]) behind

def parseClass (rest : Units) : Parse (Node × Units) := do
  let negate := rest.head? = some (unit '^')
  let rest := if negate then rest.tail else rest
  let literal := rest.head? = some (unit ']')
  let ranges : Ranges := if literal then [(93, 93)] else []
  let rest := if literal then rest.tail else rest
  let (ranges, rest) ← classItems (rest.length + 1) ranges rest
  return (.cls negate ranges, rest)

def parseEscape (rest : Units) : Parse (Node × Units) :=
  match rest with
  | [] => syntaxError (units "trailing backslash")
  | esc :: behind =>
    if unit '1' ≤ esc ∧ esc ≤ unit '9' then
      syntaxError (units "backreferences are not supported")
    else
      match shorthand esc with
      | some (negate, ranges) => .ok (.cls negate ranges, behind)
      | none => .ok (.char (controlEscape esc), behind)

mutual

def parseAlternation : Nat → ParserState → Parse (Node × ParserState)
  | 0, _ => .error .outOfFuel
  | fuel + 1, st => do
    let (first, st) ← parseConcat fuel st
    let (rest, st) ← parseArms fuel st
    return (if rest.isEmpty then first else .alt first rest, st)

def parseArms : Nat → ParserState → Parse (List Node × ParserState)
  | 0, _ => .error .outOfFuel
  | fuel + 1, st =>
    if st.rest.head? = some (unit '|') then do
      let (part, st) ← parseConcat fuel { st with rest := st.rest.tail }
      let (parts, st) ← parseArms fuel st
      return (part :: parts, st)
    else .ok ([], st)

def parseConcat : Nat → ParserState → Parse (Node × ParserState)
  | 0, _ => .error .outOfFuel
  | fuel + 1, st => do
    let (parts, st) ← parseParts fuel st
    match parts with
    | [] => return (.empty, st)
    | [part] => return (part, st)
    | parts => return (.cat parts, st)

def parseParts : Nat → ParserState → Parse (List Node × ParserState)
  | 0, _ => .error .outOfFuel
  | fuel + 1, st =>
    match st.rest with
    | [] => .ok ([], st)
    | ch :: _ =>
      if ch = unit '|' ∨ ch = unit ')' then .ok ([], st)
      else do
        let (part, st) ← parseRepeat fuel st
        let (parts, st) ← parseParts fuel st
        return (part :: parts, st)

def parseRepeat : Nat → ParserState → Parse (Node × ParserState)
  | 0, _ => .error .outOfFuel
  | fuel + 1, st => do
    let (node, st) ← parseAtom fuel st
    let (node, rest) ← parseOperators fuel node st.rest
    return (node, { st with rest := rest })

def parseAtom : Nat → ParserState → Parse (Node × ParserState)
  | 0, _ => .error .outOfFuel
  | fuel + 1, st =>
    match st.rest with
    | [] => .ok (.empty, st)
    | ch :: behind =>
      if ch = unit '(' then
        if behind.head? = some (unit '?') then
          syntaxError (units "(?...) groups are not supported")
        else do
          let index := st.groups + 1
          let (inner, st) ← parseAlternation fuel ⟨behind, index⟩
          if st.rest.head? = some (unit ')') then
            return (.group inner index, { st with rest := st.rest.tail })
          else syntaxError (units "unclosed group")
      else if ch = unit '[' then do
        let (node, rest) ← parseClass behind
        return (node, { st with rest := rest })
      else if ch = unit '.' then .ok (.any, { st with rest := behind })
      else if ch = unit '^' then .ok (.bol, { st with rest := behind })
      else if ch = unit '$' then .ok (.eol, { st with rest := behind })
      else if ch = unit '\\' then do
        let (node, rest) ← parseEscape behind
        return (node, { st with rest := rest })
      else if ch = unit ')' then syntaxError (units "unmatched )")
      else .ok (.char ch, { st with rest := behind })

end

def parse (pattern : Units) : Parse (Node × ParserState) :=
  parseAlternation (5 * pattern.length + 5) ⟨pattern, 0⟩

/-! ### The fuel is enough -/

/-- Not out of fuel, and a result satisfies `P`. -/
def Parse.Sure {α : Type} (P : α → Prop) : Parse α → Prop
  | .ok a => P a
  | .error (.syntaxError _) => True
  | .error .outOfFuel => False

section Sure

variable {α β : Type} {P : α → Prop} {Q : β → Prop}

@[simp] theorem sure_ok {a : α} : Parse.Sure P (.ok a) ↔ P a := Iff.rfl

@[simp] theorem sure_pure {a : α} : Parse.Sure P (pure a) ↔ P a := Iff.rfl

@[simp] theorem sure_syntaxError (message : Units) : Parse.Sure P (syntaxError message) := trivial

theorem Parse.Sure.mono {P' : α → Prop} {p : Parse α} (h : p.Sure P) (hP : ∀ a, P a → P' a) :
    p.Sure P' := by
  cases p with
  | ok a => exact hP a h
  | error e =>
    cases e with
    | syntaxError e => trivial
    | outOfFuel => exact h

theorem Parse.Sure.bind {p : Parse α} {f : α → Parse β} (hp : p.Sure P)
    (hf : ∀ a, P a → (f a).Sure Q) : (p >>= f).Sure Q := by
  cases p with
  | ok a => exact hf a hp
  | error e =>
    cases e with
    | syntaxError e => trivial
    | outOfFuel => exact hp

end Sure

theorem length_dropWhile_le (f : UInt16 → Bool) (us : Units) :
    (us.dropWhile f).length ≤ us.length :=
  (List.dropWhile_sublist f).length_le

theorem parseBounds_sure (ch : UInt16) (behind : Units) :
    (parseBounds (ch :: behind)).Sure fun r => ∀ q ∈ r, q.2.length ≤ behind.length := by
  have hlength := length_dropWhile_le (· ≠ unit '\x7d') behind
  unfold parseBounds
  rw [List.tail_cons]
  split
  · simp
  · next _ after heq =>
    rw [heq, List.length_cons] at hlength
    split
    · simp
    · split
      · simp
      · split
        · simp only [sure_ok, Option.mem_some_iff, forall_eq']
          omega
        · simp

theorem parseOperators_sure {fuel : Nat} {node : Node} {rest : Units} (hfuel : rest.length < fuel) :
    (parseOperators fuel node rest).Sure fun r => r.2.length ≤ rest.length := by
  induction fuel generalizing node rest with
  | zero => omega
  | succ fuel ih =>
    cases rest with
    | nil => simp [parseOperators]
    | cons ch behind =>
      rw [List.length_cons] at hfuel
      have hnext : ∀ {node : Node} {after : Units}, after.length ≤ behind.length →
          (parseOperators fuel node after).Sure fun r => r.2.length ≤ (ch :: behind).length := by
        intro node after hle
        refine (@ih node after (by omega)).mono fun r hr => ?_
        rw [List.length_cons]
        omega
      rw [parseOperators]
      split
      · exact hnext le_rfl
      split
      · exact hnext le_rfl
      split
      · exact hnext le_rfl
      split
      · refine (parseBounds_sure ch behind).bind fun r hr => ?_
        cases r with
        | none => exact le_refl (ch :: behind).length
        | some q => exact hnext (hr q rfl)
      · exact le_refl (ch :: behind).length

theorem classEscape_sure (rest : Units) :
    (classEscape rest).Sure fun r => r.2.length < rest.length := by
  cases rest with
  | nil => exact sure_syntaxError _
  | cons esc behind => exact Nat.lt_succ_self behind.length

theorem classHigh_sure (hiCh : UInt16) (rest : Units) :
    (classHigh hiCh rest).Sure fun r => r.2.length ≤ rest.length := by
  unfold classHigh
  split
  · refine (classEscape_sure rest).bind fun r hr => ?_
    exact Nat.le_of_lt hr
  · exact le_refl rest.length

theorem classRange_sure (lo : UInt16) (rest : Units) :
    (classRange lo rest).Sure fun r => r.2.length ≤ rest.length := by
  unfold classRange
  split
  · next dash hiCh behind =>
    have hshorter : behind.length ≤ (dash :: hiCh :: behind).length := by
      simp only [List.length_cons]
      omega
    split
    · refine (classHigh_sure hiCh behind).bind fun r hr => ?_
      simp only
      split
      · exact sure_syntaxError _
      · exact le_trans hr hshorter
    · exact le_refl (dash :: hiCh :: behind).length
  · exact le_refl rest.length

theorem classItems_sure {fuel : Nat} {ranges : Ranges} {rest : Units} (hfuel : rest.length < fuel) :
    (classItems fuel ranges rest).Sure fun r => r.2.length ≤ rest.length := by
  induction fuel generalizing ranges rest with
  | zero => omega
  | succ fuel ih =>
    cases rest with
    | nil => exact sure_syntaxError _
    | cons ch behind =>
      rw [List.length_cons] at hfuel
      have hnext : ∀ {ranges : Ranges} {after : Units}, after.length ≤ behind.length →
          (classItems fuel ranges after).Sure fun r => r.2.length ≤ (ch :: behind).length := by
        intro ranges after hle
        refine (@ih ranges after (by omega)).mono fun r hr => ?_
        rw [List.length_cons]
        omega
      have hrange : ∀ {lo : UInt16} {after : Units}, after.length ≤ behind.length →
          (do
            let (range, after) ← classRange lo after
            classItems fuel (ranges ++ [range]) after : Parse (Ranges × Units)).Sure
              fun r => r.2.length ≤ (ch :: behind).length := by
        intro lo after hle
        refine (classRange_sure lo after).bind fun r hr => ?_
        exact hnext (hr.trans hle)
      rw [classItems]
      split
      · exact Nat.le_succ behind.length
      split
      · refine (classEscape_sure behind).bind fun r hr => ?_
        simp only
        split
        · exact sure_syntaxError _
        · exact hnext (Nat.le_of_lt hr)
        · exact hrange (Nat.le_of_lt hr)
      · exact hrange le_rfl

theorem parseClass_sure (rest : Units) :
    (parseClass rest).Sure fun r => r.2.length ≤ rest.length := by
  have htail : ∀ (us : Units) (b : Prop) [Decidable b],
      (if b then us.tail else us).length ≤ us.length := by
    intro us b _
    split
    · rw [List.length_tail]
      omega
    · exact le_rfl
  unfold parseClass
  simp only
  refine (classItems_sure (Nat.lt_succ_self _)).bind fun r hr => ?_
  exact hr.trans ((htail _ _).trans (htail _ _))

theorem parseEscape_sure (rest : Units) :
    (parseEscape rest).Sure fun r => r.2.length ≤ rest.length := by
  cases rest with
  | nil => exact sure_syntaxError _
  | cons esc behind =>
    unfold parseEscape
    simp only
    split
    · exact sure_syntaxError _
    · split
      · exact Nat.le_succ behind.length
      · exact Nat.le_succ behind.length

/-- What each function needs for the units that are left. A round of five calls takes at least
one unit. -/
structure Enough (fuel : Nat) : Prop where
  alternation : ∀ st, 5 * st.rest.length + 5 ≤ fuel →
    (parseAlternation fuel st).Sure fun r => r.2.rest.length ≤ st.rest.length
  arms : ∀ st, 5 * st.rest.length + 4 ≤ fuel →
    (parseArms fuel st).Sure fun r => r.2.rest.length ≤ st.rest.length
  concat : ∀ st, 5 * st.rest.length + 4 ≤ fuel →
    (parseConcat fuel st).Sure fun r => r.2.rest.length ≤ st.rest.length
  parts : ∀ st, 5 * st.rest.length + 3 ≤ fuel →
    (parseParts fuel st).Sure fun r => r.2.rest.length ≤ st.rest.length
  repeated : ∀ st, st.rest ≠ [] → 5 * st.rest.length + 2 ≤ fuel →
    (parseRepeat fuel st).Sure fun r => r.2.rest.length < st.rest.length
  atom : ∀ st, st.rest ≠ [] → 5 * st.rest.length + 1 ≤ fuel →
    (parseAtom fuel st).Sure fun r => r.2.rest.length < st.rest.length

theorem length_tail_lt {us : Units} {u : UInt16} (h : us.head? = some u) :
    us.tail.length < us.length := by
  cases us with
  | nil => cases h
  | cons _ us => exact Nat.lt_succ_self us.length

section Step

variable {fuel : Nat} (ih : Enough fuel) (st : ParserState)

include ih

theorem parseAlternation_sure (h : 5 * st.rest.length + 5 ≤ fuel + 1) :
    (parseAlternation (fuel + 1) st).Sure fun r => r.2.rest.length ≤ st.rest.length := by
  rw [parseAlternation]
  refine (ih.concat st (by omega)).bind fun first hfirst => ?_
  refine (ih.arms first.2 (by omega)).bind fun rest hrest => ?_
  exact hrest.trans hfirst

theorem parseArms_sure (h : 5 * st.rest.length + 4 ≤ fuel + 1) :
    (parseArms (fuel + 1) st).Sure fun r => r.2.rest.length ≤ st.rest.length := by
  rw [parseArms]
  split
  · next hbar =>
    have htail := length_tail_lt hbar
    refine (ih.concat { st with rest := st.rest.tail } (by simp only; omega)).bind
      fun part hpart => ?_
    simp only at hpart
    refine (ih.arms part.2 (by omega)).bind fun parts hparts => ?_
    exact hparts.trans (hpart.trans (Nat.le_of_lt htail))
  · exact le_refl st.rest.length

theorem parseConcat_sure (h : 5 * st.rest.length + 4 ≤ fuel + 1) :
    (parseConcat (fuel + 1) st).Sure fun r => r.2.rest.length ≤ st.rest.length := by
  rw [parseConcat]
  refine (ih.parts st (by omega)).bind fun parts hparts => ?_
  obtain ⟨parts, st'⟩ := parts
  simp only
  split
  · exact hparts
  · exact hparts
  · exact hparts

theorem parseParts_sure (h : 5 * st.rest.length + 3 ≤ fuel + 1) :
    (parseParts (fuel + 1) st).Sure fun r => r.2.rest.length ≤ st.rest.length := by
  rw [parseParts]
  split
  · exact le_refl st.rest.length
  · next ch behind hrest =>
    split
    · exact le_refl st.rest.length
    · refine (ih.repeated st (by simp [hrest]) (by omega)).bind fun part hpart => ?_
      refine (ih.parts part.2 (by omega)).bind fun parts hparts => ?_
      exact hparts.trans (Nat.le_of_lt hpart)

theorem parseRepeat_sure (hne : st.rest ≠ []) (h : 5 * st.rest.length + 2 ≤ fuel + 1) :
    (parseRepeat (fuel + 1) st).Sure fun r => r.2.rest.length < st.rest.length := by
  rw [parseRepeat]
  refine (ih.atom st hne (by omega)).bind fun node hnode => ?_
  refine (parseOperators_sure (show node.2.rest.length < fuel by omega)).bind fun r hr => ?_
  exact lt_of_le_of_lt hr hnode

theorem parseAtom_sure (hne : st.rest ≠ []) (h : 5 * st.rest.length + 1 ≤ fuel + 1) :
    (parseAtom (fuel + 1) st).Sure fun r => r.2.rest.length < st.rest.length := by
  rw [parseAtom]
  split
  · next hrest => exact absurd hrest hne
  · next ch behind hrest =>
    have hlength : behind.length < st.rest.length := by
      rw [hrest]
      exact Nat.lt_succ_self behind.length
    split
    · split
      · exact sure_syntaxError _
      · refine (ih.alternation ⟨behind, st.groups + 1⟩ (by simp only; omega)).bind
          fun inner hinner => ?_
        simp only at hinner ⊢
        split
        · next hclose => exact ((length_tail_lt hclose).trans_le hinner).trans hlength
        · exact sure_syntaxError _
    split
    · refine (parseClass_sure behind).bind fun r hr => ?_
      exact lt_of_le_of_lt hr hlength
    split
    · exact hlength
    split
    · exact hlength
    split
    · exact hlength
    split
    · refine (parseEscape_sure behind).bind fun r hr => ?_
      exact lt_of_le_of_lt hr hlength
    split
    · exact sure_syntaxError _
    · exact hlength

end Step

theorem enough (fuel : Nat) : Enough fuel := by
  induction fuel with
  | zero => exact ⟨fun _ h => by omega, fun _ h => by omega, fun _ h => by omega,
      fun _ h => by omega, fun _ _ h => by omega, fun _ _ h => by omega⟩
  | succ fuel ih => exact ⟨parseAlternation_sure ih, parseArms_sure ih, parseConcat_sure ih,
      parseParts_sure ih, parseRepeat_sure ih, parseAtom_sure ih⟩

/-- Where the stack holds five calls for each unit and five more, or any number beyond, parsing
ends. -/
theorem parse_ends (pattern : Units) (spare : Nat) :
    (∃ r, parseAlternation (5 * pattern.length + 5 + spare) ⟨pattern, 0⟩ = .ok r) ∨
      ∃ e, parseAlternation (5 * pattern.length + 5 + spare) ⟨pattern, 0⟩ =
        .error (.syntaxError e) := by
  have hsure := (enough (5 * pattern.length + 5 + spare)).alternation ⟨pattern, 0⟩
    (Nat.le_add_right _ spare)
  cases h : parseAlternation (5 * pattern.length + 5 + spare) ⟨pattern, 0⟩ with
  | ok r => exact .inl ⟨r, rfl⟩
  | error e =>
    cases e with
    | syntaxError e => exact .inr ⟨e, rfl⟩
    | outOfFuel =>
      rw [h] at hsure
      exact hsure.elim

end Ionosphere.Regex
