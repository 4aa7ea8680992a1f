import Ionosphere.Js.Number

/-! Macro strings as section 7 of RFC 7208 defines them: the grammar, what a string of the
grammar stands for, and a reader of the part of the grammar that does not depend on where the
string stands. -/
namespace Ionosphere.MailAuth

open Ionosphere.Js

variable {c : Char}

inductive MacroLetter where
  | s
  | l
  | o
  | d
  | i
  | p
  | h
  | c
  | r
  | t
  | v
  deriving DecidableEq

def MacroLetter.all : List MacroLetter := [.s, .l, .o, .d, .i, .p, .h, .c, .r, .t, .v]

def MacroLetter.char : MacroLetter → Char
  | .s => 's'
  | .l => 'l'
  | .o => 'o'
  | .d => 'd'
  | .i => 'i'
  | .p => 'p'
  | .h => 'h'
  | .c => 'c'
  | .r => 'r'
  | .t => 't'
  | .v => 'v'

def MacroLetter.expOnly : MacroLetter → Bool
  | .c => true
  | .r => true
  | .t => true
  | _ => false

/-- The reverse transformer: a literal of the grammar, which has no case. -/
inductive Reverser where
  | absent
  | small
  | capital
  deriving DecidableEq

def Reverser.spelling : Reverser → Text
  | .absent => []
  | .small => ['r']
  | .capital => ['R']

structure MacroExpand where
  letter : MacroLetter
  capital : Bool
  digits : Text
  reverser : Reverser
  delimiters : Text
  deriving DecidableEq

def isMacroDelimiter (c : Char) : Bool := c ∈ ".-+,/_=".toList

def MacroExpand.letterSpelling (m : MacroExpand) : Char :=
  if m.capital then asciiUpper m.letter.char else m.letter.char

def MacroExpand.inner (m : MacroExpand) : Text :=
  m.letterSpelling :: (m.digits ++ (m.reverser.spelling ++ m.delimiters))

inductive MacroPiece where
  | literal (c : Char)
  | percent
  | space
  | urlSpace
  | expand (m : MacroExpand)
  deriving DecidableEq

variable {m : MacroExpand} {pieces : List MacroPiece}

def MacroPiece.spelling : MacroPiece → Text
  | .literal c => [c]
  | .percent => "%%".toList
  | .space => "%_".toList
  | .urlSpace => "%-".toList
  | .expand m => '%' :: '\x7b' :: (m.inner ++ ['\x7d'])

/-- Visible characters but `%`; in an explanation also the space. -/
def isMacroLiteral (forExp : Bool) (c : Char) : Bool :=
  (0x21 ≤ c.toNat && c.toNat ≤ 0x7e && c ≠ '%') || (forExp && c = ' ')

def MacroExpand.Shaped (m : MacroExpand) : Prop :=
  (∀ c ∈ m.digits, isDigit c) ∧ ∀ c ∈ m.delimiters, isMacroDelimiter c

def MacroExpand.WellFormed (forExp : Bool) (m : MacroExpand) : Prop :=
  m.Shaped ∧ (m.digits ≠ [] → 0 < digitsValue 10 m.digits) ∧ (m.letter.expOnly → forExp)

def MacroPiece.WellFormed (forExp : Bool) : MacroPiece → Prop
  | .literal c => isMacroLiteral forExp c
  | .expand m => m.WellFormed forExp
  | _ => True

/-- `t` is the macro string of the pieces. -/
structure IsMacroString (forExp : Bool) (t : Text) (pieces : List MacroPiece) : Prop where
  spelled : t = pieces.flatMap MacroPiece.spelling
  wellFormed : ∀ p ∈ pieces, p.WellFormed forExp

def isUnreserved (c : Char) : Bool :=
  ('A' ≤ c && c ≤ 'Z') || ('a' ≤ c && c ≤ 'z') || isDigit c || c ∈ "-._~".toList

def upperHex (n : Nat) : Char := if n < 10 then Char.ofNat (48 + n) else Char.ofNat (55 + n)

def percentByte (b : UInt8) : Text := ['%', upperHex (b.toNat / 16), upperHex (b.toNat % 16)]

def urlEscape (s : Text) : Text :=
  s.flatMap fun c => if isUnreserved c then [c] else (utf8Encode [c]).flatMap percentByte

def rightmost (n : Nat) (parts : List Text) : List Text :=
  if n = 0 then parts else parts.drop (parts.length - n)

section

variable (values : MacroLetter → Text)

def MacroExpand.value (m : MacroExpand) : Text :=
  let delimiters := if m.delimiters = [] then ['.'] else m.delimiters
  let parts := (values m.letter).splitOnP (· ∈ delimiters)
  let parts := if m.reverser = .absent then parts else parts.reverse
  join ['.'] (rightmost (digitsValue 10 m.digits) parts)

def MacroExpand.expansion (m : MacroExpand) : Text :=
  if m.capital then urlEscape (m.value values) else m.value values

def MacroPiece.expansion : MacroPiece → Text
  | .literal c => [c]
  | .percent => ['%']
  | .space => [' ']
  | .urlSpace => "%20".toList
  | .expand m => m.expansion values

def macroExpansion (pieces : List MacroPiece) : Text :=
  pieces.flatMap (MacroPiece.expansion values)

end

/-- Labels are taken off the left until the name fits. -/
def fitLabels : List Text → List Text
  | [] => []
  | label :: labels =>
    if (join ['.'] (label :: labels)).length ≤ 253 then label :: labels else fitLabels labels

def fitDomain (d : Text) : Text := join ['.'] (fitLabels (d.splitOn '.'))

theorem fitDomain_of_le {d : Text} (h : d.length ≤ 253) : fitDomain d = d := by
  have hjoin : join ['.'] (d.splitOn '.') = d := List.intercalate_splitOn '.'
  unfold fitDomain
  rcases hlabels : d.splitOn '.' with - | ⟨label, labels⟩
  · exact absurd hlabels (List.splitOn_ne_nil '.' d)
  · rw [hlabels] at hjoin
    rw [fitLabels, if_pos (by rw [hjoin]; exact h), hjoin]

def MacroLetter.ofChar (c : Char) : Option MacroLetter :=
  MacroLetter.all.find? fun letter => letter.char = asciiLower c

def readReverser : Text → Reverser × Text
  | 'r' :: rest => (.small, rest)
  | 'R' :: rest => (.capital, rest)
  | rest => (.absent, rest)

def readMacro : Text → Option MacroExpand
  | [] => none
  | c :: rest =>
    (MacroLetter.ofChar c).bind fun letter =>
      let (reverser, delimiters) := readReverser (rest.dropWhile isDigit)
      if delimiters.all isMacroDelimiter then
        some ⟨letter, c ≠ asciiLower c, rest.takeWhile isDigit, reverser, delimiters⟩
      else none

/-- Where a reader of a macro string stands. -/
inductive MacroReader where
  | plain
  | percent
  | braces (inner : Text)

def readFrom : MacroReader → Text → Option (List MacroPiece)
  | .plain, [] => some []
  | .plain, c :: rest =>
    if c = '%' then readFrom .percent rest
    else (readFrom .plain rest).map (.literal c :: ·)
  | .percent, [] => none
  | .percent, c :: rest =>
    if c = '%' then (readFrom .plain rest).map (.percent :: ·)
    else if c = '_' then (readFrom .plain rest).map (.space :: ·)
    else if c = '-' then (readFrom .plain rest).map (.urlSpace :: ·)
    else if c = '\x7b' then readFrom (.braces []) rest
    else none
  | .braces _, [] => none
  | .braces inner, c :: rest =>
    if c = '\x7d' then
      (readMacro inner).bind fun m => (readFrom .plain rest).map (.expand m :: ·)
    else readFrom (.braces (inner ++ [c])) rest

/-- The pieces of a text, where any character counts as a literal and any number is allowed. -/
def readPieces (t : Text) : Option (List MacroPiece) := readFrom .plain t

def MacroPiece.Shaped : MacroPiece → Prop
  | .literal c => c ≠ '%'
  | .expand m => m.Shaped
  | _ => True

theorem asciiLower_of_ne (h : c ≠ asciiLower c) : asciiUpper (asciiLower c) = c := by
  unfold asciiLower at h ⊢
  by_cases hc : (65 ≤ c.toNat && c.toNat ≤ 90) = true
  · rw [if_pos hc]
    simp only [Bool.and_eq_true, decide_eq_true_eq] at hc
    have hnat : (Char.ofNat (c.toNat + 32)).toNat = c.toNat + 32 := toNat_ofNat_lt (by omega)
    unfold asciiUpper
    have hlower : (97 ≤ c.toNat + 32 && c.toNat + 32 ≤ 122) = true := by
      simp only [Bool.and_eq_true, decide_eq_true_eq]
      omega
    rw [hnat, if_pos hlower, Nat.add_sub_cancel, Char.ofNat_toNat]
  · rw [if_neg hc] at h
    exact absurd rfl h

theorem ofChar_letterSpelling (m : MacroExpand) :
    MacroLetter.ofChar m.letterSpelling = some m.letter ∧
      decide (m.letterSpelling ≠ asciiLower m.letterSpelling) = m.capital := by
  have hall : ∀ (letter : MacroLetter) (capital : Bool),
      let c := if capital then asciiUpper letter.char else letter.char
      MacroLetter.ofChar c = some letter ∧ decide (c ≠ asciiLower c) = capital := by
    intro letter capital
    cases letter <;> cases capital <;> decide
  exact hall m.letter m.capital

theorem spelling_ofChar {letter : MacroLetter} (h : MacroLetter.ofChar c = some letter) :
    (if c ≠ asciiLower c then asciiUpper letter.char else letter.char) = c := by
  have hchar : letter.char = asciiLower c := by
    have hfound := List.find?_some h
    simpa using hfound
  rw [hchar]
  by_cases hc : c ≠ asciiLower c
  · rw [if_pos hc, asciiLower_of_ne hc]
  · rw [if_neg hc]
    exact (not_not.mp hc).symm

theorem delimiter_ne (h : isMacroDelimiter c = true) :
    c ≠ 'r' ∧ c ≠ 'R' ∧ c ≠ '\x7d' ∧ isDigit c = false := by
  have hall : ∀ d ∈ ".-+,/_=".toList, d ≠ 'r' ∧ d ≠ 'R' ∧ d ≠ '\x7d' ∧ isDigit d = false := by
    decide
  exact hall c (by simpa [isMacroDelimiter] using h)

theorem readReverser_spelling (reverser : Reverser) {delimiters : Text}
    (h : ∀ c ∈ delimiters, isMacroDelimiter c) :
    readReverser (reverser.spelling ++ delimiters) = (reverser, delimiters) := by
  cases reverser with
  | small => rfl
  | capital => rfl
  | absent =>
    cases delimiters with
    | nil => rfl
    | cons c rest =>
      obtain ⟨hr, hR, -⟩ := delimiter_ne (h c List.mem_cons_self)
      unfold readReverser
      split
      · exact absurd (List.cons.inj (by assumption)).1 hr
      · exact absurd (List.cons.inj (by assumption)).1 hR
      · rfl

theorem spelling_readReverser (s : Text) :
    s = (readReverser s).1.spelling ++ (readReverser s).2 := by
  unfold readReverser
  split <;> rfl

theorem tail_no_digit (m : MacroExpand) (h : m.Shaped) :
    ∀ c, (m.reverser.spelling ++ m.delimiters).head? = some c → isDigit c = false := by
  obtain ⟨letter, capital, digits, reverser, delimiters⟩ := m
  intro c hc
  cases reverser with
  | small =>
    cases hc
    rfl
  | capital =>
    cases hc
    rfl
  | absent =>
    cases delimiters with
    | nil => cases hc
    | cons d rest =>
      cases hc
      exact (delimiter_ne (h.2 c List.mem_cons_self)).2.2.2

theorem takeWhile_of_head {p : Char → Bool} {s : Text} (h : ∀ c, s.head? = some c → p c = false) :
    s.takeWhile p = [] ∧ s.dropWhile p = s := by
  cases s with
  | nil => exact ⟨rfl, rfl⟩
  | cons c rest =>
    have hc := h c rfl
    exact ⟨List.takeWhile_cons_of_neg (by simp [hc]), List.dropWhile_cons_of_neg (by simp [hc])⟩

theorem readMacro_inner (h : m.Shaped) : readMacro m.inner = some m := by
  obtain ⟨hletter, hcapital⟩ := ofChar_letterSpelling m
  obtain ⟨htake, hdrop⟩ := takeWhile_of_head (tail_no_digit m h)
  have hdigits : (m.digits ++ (m.reverser.spelling ++ m.delimiters)).takeWhile isDigit = m.digits := by
    rw [List.takeWhile_append_of_pos h.1, htake, List.append_nil]
  have hrest : (m.digits ++ (m.reverser.spelling ++ m.delimiters)).dropWhile isDigit =
      m.reverser.spelling ++ m.delimiters := by
    rw [List.dropWhile_append_of_pos h.1, hdrop]
  unfold MacroExpand.inner readMacro
  simp only [hletter, hdigits, hrest, Option.bind_some, readReverser_spelling m.reverser h.2,
    List.all_eq_true.mpr h.2, if_true, hcapital]

theorem readMacro_sound {inner : Text} (h : readMacro inner = some m) :
    inner = m.inner ∧ m.Shaped := by
  cases inner with
  | nil => cases h
  | cons c rest =>
    unfold readMacro at h
    obtain ⟨letter, hletter, hm⟩ := Option.bind_eq_some_iff.mp h
    dsimp only at hm
    split at hm
    case isFalse => cases hm
    case isTrue hdelimiters =>
      cases hm
      constructor
      · have htail := spelling_readReverser (rest.dropWhile isDigit)
        have hc := spelling_ofChar hletter
        unfold MacroExpand.inner MacroExpand.letterSpelling
        simp only [decide_eq_true_eq]
        rw [hc, ← htail, List.takeWhile_append_dropWhile]
      · exact ⟨fun d hd => (List.mem_takeWhile_imp hd), List.all_eq_true.mp hdelimiters⟩

theorem inner_no_brace (h : m.Shaped) : '\x7d' ∉ m.inner := by
  obtain ⟨letter, capital, digits, reverser, delimiters⟩ := m
  unfold MacroExpand.inner
  rw [List.mem_cons, List.mem_append, List.mem_append]
  rintro (hletter | hdigit | hreverser | hdelimiter)
  · revert hletter
    cases letter <;> cases capital <;> simp [MacroExpand.letterSpelling, MacroLetter.char, asciiUpper]
  · exact absurd (h.1 _ hdigit) (by decide)
  · cases reverser <;> simp [Reverser.spelling] at hreverser
  · exact absurd (h.2 _ hdelimiter) (by decide)

theorem readFrom_braces (acc inner rest : Text) (h : '\x7d' ∉ inner) :
    readFrom (.braces acc) (inner ++ '\x7d' :: rest) =
      (readMacro (acc ++ inner)).bind fun m => (readFrom .plain rest).map (.expand m :: ·) := by
  induction inner generalizing acc with
  | nil => rw [List.append_nil, List.nil_append, readFrom, if_pos rfl]
  | cons c inner ih =>
    have hc : c ≠ '\x7d' := fun heq => h (heq ▸ List.mem_cons_self)
    have hinner : '\x7d' ∉ inner := fun hmem => h (List.mem_cons_of_mem _ hmem)
    rw [List.cons_append, readFrom, if_neg hc, ih (acc ++ [c]) hinner, List.append_assoc,
      List.singleton_append]

theorem readFrom_piece {p : MacroPiece} (h : p.Shaped) (rest : Text) :
    readFrom .plain (p.spelling ++ rest) = (readFrom .plain rest).map (p :: ·) := by
  cases p with
  | literal c => exact if_neg h
  | percent => rfl
  | space => rfl
  | urlSpace => rfl
  | expand m =>
    have hbraces := readFrom_braces [] m.inner rest (inner_no_brace h)
    rw [List.nil_append, readMacro_inner h, Option.bind_some] at hbraces
    rw [← hbraces]
    simp only [MacroPiece.spelling, List.cons_append, List.append_assoc, List.nil_append]
    rfl

theorem readPieces_spelling (h : ∀ p ∈ pieces, p.Shaped) :
    readPieces (pieces.flatMap MacroPiece.spelling) = some pieces := by
  unfold readPieces
  induction pieces with
  | nil => rfl
  | cons p pieces ih =>
    rw [List.flatMap_cons, readFrom_piece (h p List.mem_cons_self),
      ih fun q hq => h q (List.mem_cons_of_mem _ hq), Option.map_some]

def MacroReader.held : MacroReader → Text
  | .plain => []
  | .percent => ['%']
  | .braces inner => '%' :: '\x7b' :: inner

theorem readFrom_sound (reader : MacroReader) (t : Text)
    (h : readFrom reader t = some pieces) :
    reader.held ++ t = pieces.flatMap MacroPiece.spelling ∧ ∀ p ∈ pieces, p.Shaped := by
  have hcons : ∀ (q : MacroPiece) {rest : Text} {pieces : List MacroPiece},
      (∀ {ps}, readFrom .plain rest = some ps →
        MacroReader.plain.held ++ rest = ps.flatMap MacroPiece.spelling ∧ ∀ p ∈ ps, p.Shaped) →
      q.Shaped → (readFrom .plain rest).map (q :: ·) = some pieces →
      q.spelling ++ rest = pieces.flatMap MacroPiece.spelling ∧ ∀ p ∈ pieces, p.Shaped := by
    intro q rest pieces ih hq hmap
    obtain ⟨ps, hps, rfl⟩ := Option.map_eq_some_iff.mp hmap
    obtain ⟨htext, hshaped⟩ := ih hps
    refine ⟨by rw [List.flatMap_cons, ← htext]; rfl, ?_⟩
    exact List.forall_mem_cons.mpr ⟨hq, hshaped⟩
  fun_induction readFrom reader t generalizing pieces with
  | case1 =>
    cases h
    exact ⟨rfl, fun p hp => by cases hp⟩
  | case2 rest ih => exact ih h
  | case3 c rest hc ih => exact hcons (.literal c) ih hc h
  | case4 => cases h
  | case5 rest ih => exact hcons .percent ih trivial h
  | case6 rest _ ih => exact hcons .space ih trivial h
  | case7 rest _ _ ih => exact hcons .urlSpace ih trivial h
  | case8 rest _ _ _ ih => exact ih h
  | case9 => cases h
  | case10 => cases h
  | case11 inner rest ih =>
    obtain ⟨m, hm, hmap⟩ := Option.bind_eq_some_iff.mp h
    obtain ⟨rfl, hshaped⟩ := readMacro_sound hm
    obtain ⟨htext, hall⟩ := hcons (.expand m) ih hshaped hmap
    refine ⟨?_, hall⟩
    rw [← htext]
    simp [MacroReader.held, MacroPiece.spelling]
  | case12 inner c rest hc ih =>
    obtain ⟨htext, hall⟩ := ih h
    refine ⟨?_, hall⟩
    rw [← htext]
    simp [MacroReader.held]

theorem isMacroString_iff {forExp : Bool} {t : Text} :
    IsMacroString forExp t pieces ↔
      readPieces t = some pieces ∧ ∀ p ∈ pieces, p.WellFormed forExp := by
  have hshaped : ∀ p : MacroPiece, p.WellFormed forExp → p.Shaped := by
    intro p hp
    cases p with
    | literal c =>
      rintro rfl
      cases forExp <;> exact absurd hp (by simp [MacroPiece.WellFormed, isMacroLiteral])
    | expand m => exact hp.1
    | _ => trivial
  constructor
  · rintro ⟨rfl, hwell⟩
    exact ⟨readPieces_spelling fun p hp => hshaped p (hwell p hp), hwell⟩
  · rintro ⟨hread, hwell⟩
    exact ⟨(readFrom_sound .plain t hread).1, hwell⟩

end Ionosphere.MailAuth
