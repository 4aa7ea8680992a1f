import Ionosphere.Imap.MessageCommands
import Ionosphere.Imap.Retained
import Ionosphere.Js.Digits
import Ionosphere.Js.Utf8

/-! Strings in responses: `nstring` and `literalWire` in the data of FETCH, `quoteMailboxName`
wherever a mailbox is named. What they write is read again with the reader and the parser of
the same protocol. -/
namespace Ionosphere.Imap

open Ionosphere.Js Ionosphere.Core

def quotedSafe (value : Text) : Bool :=
  value.all fun c => decide (0x20 ≤ c.toNat) && decide (c.toNat ≤ 0x7e)

def escapeQuoted (value : Text) : Text :=
  value.flatMap fun c => if c = '\\' ∨ c = '"' then ['\\', c] else [c]

def nstring : Option Text → Text
  | none => "NIL".toList
  | some value =>
    if quotedSafe value ∧ '"' ∉ value ∧ '\\' ∉ value then ['"'] ++ value ++ ['"']
    else if quotedSafe value then ['"'] ++ escapeQuoted value ++ ['"']
    else literalWire (utf8Encode value)

def ReaderEvent.isContinue : ReaderEvent → Bool
  | .continue _ => true
  | _ => false

def ImapValue.octets : ImapValue → Option Bytes
  | .quoted value => some (latin1Encode value)
  | .literal bytes => some bytes
  | _ => none

namespace Reader

/-- The lines and errors that come of some bytes and a line end. -/
def answers (r : Reader) (wire : Bytes) : List ReaderEvent :=
  (feed (wire ++ [CR, LF]) r).2.filter fun ev => !ev.isContinue

/-- The bytes are one line with one value, and nothing of them is left over. -/
structure ReadsBack (r : Reader) (wire octets : Bytes) : Prop where
  value : ∃ parts v, r.answers wire = [.line parts] ∧ parseValues parts = .ok [v] ∧
    v.octets = some octets
  rest : (feed (wire ++ [CR, LF]) r).1 = r

end Reader

theorem quoteMailboxName_eq (name : Text) :
    quoteMailboxName name = ['"'] ++ escapeQuoted name ++ ['"'] := rfl

theorem escapeQuoted_special {c : Char} (hc : c = '\\' ∨ c = '"') (value : Text) :
    escapeQuoted (c :: value) = '\\' :: c :: escapeQuoted value := by
  rw [escapeQuoted, List.flatMap_cons, if_pos hc]
  rfl

theorem escapeQuoted_other {c : Char} (hc : ¬(c = '\\' ∨ c = '"')) (value : Text) :
    escapeQuoted (c :: value) = c :: escapeQuoted value := by
  rw [escapeQuoted, List.flatMap_cons, if_neg hc]
  rfl

@[simp]
theorem escapeQuoted_append (s t : Text) :
    escapeQuoted (s ++ t) = escapeQuoted s ++ escapeQuoted t := List.flatMap_append

theorem escapeQuoted_plain {value : Text} (h : ∀ c ∈ value, c ≠ '\\' ∧ c ≠ '"') :
    escapeQuoted value = value := by
  induction value with
  | nil => rfl
  | cons c value ih =>
    obtain ⟨hc, hvalue⟩ := List.forall_mem_cons.mp h
    rw [escapeQuoted, List.flatMap_cons, if_neg (not_or.mpr hc), ← escapeQuoted, ih hvalue]
    rfl

theorem mem_escapeQuoted {d : Char} {value : Text} (hd : d ≠ '\\') :
    d ∈ escapeQuoted value ↔ d ∈ value := by
  rw [escapeQuoted, List.mem_flatMap]
  constructor
  · rintro ⟨c, hc, hmem⟩
    split_ifs at hmem
    · simp only [List.mem_cons, hd, List.not_mem_nil, or_false, false_or] at hmem
      rw [hmem]
      exact hc
    · rw [List.mem_singleton] at hmem
      rw [hmem]
      exact hc
  · intro hmem
    refine ⟨d, hmem, ?_⟩
    split_ifs <;> simp

def octetText (s : Text) : Text := latin1Decode (utf8Encode s)

theorem octetText_lt (s : Text) : ∀ c ∈ octetText s, c.toNat < 256 := latin1Decode_lt _

theorem latin1Encode_octetText (s : Text) : latin1Encode (octetText s) = utf8Encode s :=
  latin1Encode_latin1Decode _

theorem octetText_append (s t : Text) : octetText (s ++ t) = octetText s ++ octetText t := by
  rw [octetText, utf8Encode, List.flatMap_append, latin1Decode_append]
  rfl

theorem octetText_ascii {s : Text} (h : ∀ c ∈ s, c.toNat < 128) : octetText s = s := by
  rw [octetText, utf8Encode_ascii h]
  exact latin1Decode_latin1Encode fun c hc => Nat.lt_trans (h c hc) (by decide)

theorem octetText_high {c : Char} (h : 128 ≤ c.toNat) : ∀ d ∈ octetText [c], 128 ≤ d.toNat := by
  intro d hd
  obtain ⟨b, hb, rfl⟩ := List.mem_map.mp hd
  rw [utf8Encode, List.flatMap_singleton] at hb
  rw [toNat_ofNat_lt b.toNat_lt]
  exact utf8EncodeChar_high h b hb

theorem mem_octetText {d : Char} {s : Text} (hd : d.toNat < 128) : d ∈ octetText s ↔ d ∈ s := by
  induction s with
  | nil => exact Iff.rfl
  | cons c s ih =>
    rw [← List.singleton_append, octetText_append, List.mem_append, ih, List.mem_append]
    refine or_congr_left ?_
    by_cases hc : c.toNat < 128
    · rw [octetText_ascii (by simpa using hc)]
    · have hhigh := octetText_high (Nat.le_of_not_lt hc)
      refine iff_of_false (fun hmem => ?_) (fun hmem => ?_)
      · exact absurd hd (Nat.not_lt_of_le (hhigh d hmem))
      · rw [List.mem_singleton] at hmem
        rw [hmem] at hd
        exact hc hd

theorem octetText_escapeQuoted (s : Text) :
    octetText (escapeQuoted s) = escapeQuoted (octetText s) := by
  induction s with
  | nil => rfl
  | cons c s ih =>
    rw [← List.singleton_append, escapeQuoted_append, octetText_append, octetText_append,
      escapeQuoted_append, ih]
    congr 1
    by_cases hc : c.toNat < 128
    · have hesc : ∀ d ∈ escapeQuoted [c], d.toNat < 128 := by
        intro d hd
        by_cases hslash : d = '\\'
        · rw [hslash]
          decide
        · rw [mem_escapeQuoted hslash, List.mem_singleton] at hd
          rw [hd]
          exact hc
      rw [octetText_ascii hesc, octetText_ascii (by simpa using hc)]
    · have hplain : ∀ d, 128 ≤ d.toNat → d ≠ '\\' ∧ d ≠ '"' := by
        intro d hd
        refine ⟨?_, ?_⟩ <;> rintro rfl <;> exact absurd hd (by decide)
      have hhigh := octetText_high (Nat.le_of_not_lt hc)
      rw [escapeQuoted_plain fun d hd => hplain d (hhigh d hd)]
      rw [escapeQuoted_plain (by simpa using hplain c (Nat.le_of_not_lt hc))]

theorem utf8Encode_quoteMailboxName (s : Text) :
    utf8Encode (quoteMailboxName s) = latin1Encode (quoteMailboxName (octetText s)) := by
  rw [← latin1Encode_octetText, quoteMailboxName_eq, quoteMailboxName_eq, octetText_append,
    octetText_append, octetText_escapeQuoted]
  rfl

theorem parseQuoted_escapeQuoted (value : Text) (rest : Cursor) :
    ∃ r, parseQuoted ((escapeQuoted value).map .char ++ .char '"' :: rest) = .ok (value, r) ∧
      r.1 = rest := by
  induction value with
  | nil => exact ⟨_, rfl, rfl⟩
  | cons c value ih =>
    obtain ⟨r, hr, hrest⟩ := ih
    by_cases hc : c = '\\' ∨ c = '"'
    · have hesc : c = '"' ∨ c = '\\' := hc.symm
      rw [escapeQuoted_special hc]
      refine ⟨(r.shift (.char c)).shift (.char '\\'), ?_, hrest⟩
      change parseQuoted (.char '\\' :: .char c ::
        ((escapeQuoted value).map .char ++ .char '"' :: rest)) = _
      rw [parseQuoted, if_pos hesc, hr]
    · obtain ⟨hslash, hquote⟩ := not_or.mp hc
      rw [escapeQuoted_other hc]
      refine ⟨r.shift (.char c), ?_, hrest⟩
      change parseQuoted (.char c :: ((escapeQuoted value).map .char ++ .char '"' :: rest)) = _
      rw [parseQuoted, hr]
      all_goals simp [hslash, hquote]

def Broken (cur : Cursor) : Prop := cur = [] ∨ ∃ bytes rest, cur = .literal bytes :: rest

theorem parseQuoted_broken {value x : Text} {rest : Cursor} (hx : x <+: escapeQuoted value)
    (hrest : Broken rest) : ∃ err, parseQuoted (x.map .char ++ rest) = .error err := by
  have hend : ∃ err, parseQuoted rest = .error err := by
    obtain rfl | ⟨bytes, after, rfl⟩ := hrest
    · exact ⟨_, rfl⟩
    · exact ⟨_, rfl⟩
  induction value generalizing x with
  | nil =>
    rw [List.prefix_nil.mp hx]
    exact hend
  | cons c value ih =>
    by_cases hc : c = '\\' ∨ c = '"'
    · rw [escapeQuoted_special hc] at hx
      cases x with
      | nil => exact hend
      | cons d x =>
        obtain ⟨rfl, htail⟩ := List.cons_prefix_cons.mp hx
        cases x with
        | nil =>
          obtain rfl | ⟨bytes, after, rfl⟩ := hrest
          · exact ⟨_, rfl⟩
          · exact ⟨_, rfl⟩
        | cons e x =>
          obtain ⟨rfl, hprefix⟩ := List.cons_prefix_cons.mp htail
          obtain ⟨err, herr⟩ := ih hprefix
          have hesc : e = '"' ∨ e = '\\' := hc.symm
          refine ⟨err, ?_⟩
          change parseQuoted (.char '\\' :: .char e :: (x.map .char ++ rest)) = _
          rw [parseQuoted, if_pos hesc, herr]
    · obtain ⟨hslash, hquote⟩ := not_or.mp hc
      rw [escapeQuoted_other hc] at hx
      cases x with
      | nil => exact hend
      | cons d x =>
        obtain ⟨rfl, hprefix⟩ := List.cons_prefix_cons.mp hx
        obtain ⟨err, herr⟩ := ih hprefix
        refine ⟨err, ?_⟩
        change parseQuoted (.char d :: (x.map .char ++ rest)) = _
        rw [parseQuoted, herr]
        all_goals simp [hslash, hquote]

theorem parseValuesFrom_end {values : List ImapValue} {cur : Cursor} (h : skipSpaces cur = []) :
    parseValuesFrom values cur = .ok values := by
  rw [parseValuesFrom.eq_def]
  split
  · rfl
  · rename_i heq
    rw [h] at heq
    cases heq

theorem parseValuesFrom_value {values : List ImapValue} {cur rest : Cursor} {i : Item}
    {value : ImapValue} {r : Rest (i :: rest)} (h : skipSpaces cur = i :: rest)
    (hvalue : parseValue (i :: rest) = .ok (value, r)) :
    parseValuesFrom values cur = parseValuesFrom (values ++ [value]) r.1 := by
  rw [parseValuesFrom.eq_def]
  split
  · rename_i heq
    rw [h] at heq
    cases heq
  · rename_i heq
    rw [h] at heq
    cases heq
    rw [hvalue]

theorem parseValuesFrom_error {values : List ImapValue} {cur rest : Cursor} {i : Item}
    {err : ParseError} (h : skipSpaces cur = i :: rest)
    (hvalue : parseValue (i :: rest) = .error err) :
    parseValuesFrom values cur = .error err := by
  rw [parseValuesFrom.eq_def]
  split
  · rename_i heq
    rw [h] at heq
    cases heq
  · rename_i heq
    rw [h] at heq
    cases heq
    rw [hvalue]

theorem parseValues_quoted (value : Text) :
    parseValues [.text (quoteMailboxName value)] = .ok [.quoted value] := by
  obtain ⟨r, hr, hrest⟩ := parseQuoted_escapeQuoted value []
  have hcur : [LinePart.text (quoteMailboxName value)].flatMap LinePart.items =
      .char '"' :: ((escapeQuoted value).map .char ++ [Item.char '"']) := by
    simp [LinePart.items, quoteMailboxName_eq]
  have hvalue : parseValue (.char '"' :: ((escapeQuoted value).map .char ++ [Item.char '"'])) =
      .ok (.quoted value, r.shift (.char '"')) := by
    rw [parseValue, if_pos rfl, hr]
  rw [parseValues, hcur, parseValuesFrom_value rfl hvalue]
  refine parseValuesFrom_end ?_
  rw [Rest.shift, hrest]
  rfl

theorem parseValues_literal (bytes : Bytes) :
    parseValues [.text [], .literal bytes, .text []] = .ok [.literal bytes] := by
  have hcur : [LinePart.text [], .literal bytes, .text []].flatMap LinePart.items =
      [.literal bytes] := rfl
  rw [parseValues, hcur, parseValuesFrom_value rfl (by rw [parseValue])]
  exact parseValuesFrom_end rfl

theorem parseValues_broken {value x : Text} {parts : List LinePart}
    (hx : x <+: escapeQuoted value) (hparts : Broken (parts.flatMap LinePart.items)) :
    ∃ err, parseValues (.text ('"' :: x) :: parts) = .error err := by
  obtain ⟨err, herr⟩ := parseQuoted_broken hx hparts
  refine ⟨err, ?_⟩
  have hcur : (LinePart.text ('"' :: x) :: parts).flatMap LinePart.items =
      .char '"' :: (x.map .char ++ parts.flatMap LinePart.items) := rfl
  rw [parseValues, hcur]
  refine parseValuesFrom_error rfl ?_
  rw [parseValue, if_pos rfl, herr]

theorem parseValues_brace (t : Text) :
    ∃ err, parseValues [.text ('{' :: t)] = .error err := by
  refine ⟨"expected atom".toList, ?_⟩
  have hcur : [LinePart.text ('{' :: t)].flatMap LinePart.items =
      .char '{' :: (t.map .char ++ []) := rfl
  have hatom : (takeAtom (.char '{' :: (t.map .char ++ []))).1 = [] := rfl
  rw [parseValues, hcur]
  refine parseValuesFrom_error rfl ?_
  rw [parseValue, if_neg (by decide), if_neg (by decide), if_neg (by decide), parseAtom,
    dif_pos hatom]

theorem isDigit_natText (n : Nat) : ∀ c ∈ natText n, isDigit c = true := by
  intro c hc
  simpa [isDigit] using natText_digits n c hc

theorem matchLiteralTail_natText (n : Nat) :
    matchLiteralTail ('{' :: natText n ++ ['}']) =
      if maxSafeInteger < n then none else some ⟨[], n, false⟩ := by
  have hdigits : ∀ c ∈ (natText n).reverse, isDigit c = true := by
    intro c hc
    exact isDigit_natText n c (List.mem_reverse.mp hc)
  have hrev : ('{' :: natText n ++ ['}']).reverse = '}' :: ((natText n).reverse ++ ['{']) := by
    simp
  have hplus : ∀ rest, (natText n).reverse ++ ['{'] ≠ '+' :: rest := by
    intro rest heq
    cases hnat : (natText n).reverse with
    | nil => exact natText_ne_nil n (List.reverse_eq_nil_iff.mp hnat)
    | cons c cs =>
      rw [hnat, List.cons_append] at heq
      have hc := hdigits c (by rw [hnat]; exact List.mem_cons_self)
      rw [(List.cons.inj heq).1] at hc
      exact absurd hc (by decide)
  have htake : ((natText n).reverse ++ ['{']).takeWhile isDigit = (natText n).reverse := by
    rw [List.takeWhile_append_of_pos hdigits]
    simp [isDigit]
  have hdrop : ((natText n).reverse ++ ['{']).dropWhile isDigit = ['{'] := by
    rw [List.dropWhile_append_of_pos hdigits]
    simp [isDigit]
  unfold matchLiteralTail
  rw [hrev]
  split
  · rename_i rest heq
    exact absurd (List.cons.inj heq).2 (hplus rest)
  · rename_i rest _ heq
    rw [← (List.cons.inj heq).2, literalDigits, htake, hdrop]
    simp only [List.reverse_reverse, natText_ne_nil, false_or, digitsValue_natText,
      List.reverse_nil]
  · rename_i hnone
    exact absurd rfl (hnone _)

theorem matchLiteralTail_text {t : Text} {lit : LiteralTail} (h : matchLiteralTail t = some lit) :
    ∃ tail, t = lit.before ++ '{' :: tail := by
  have hdigits : ∀ {nonSync : Bool} {rev : Text},
      literalDigits nonSync rev = some lit → ∃ tail, rev.reverse = lit.before ++ '{' :: tail := by
    intro nonSync rev hlit
    unfold literalDigits at hlit
    dsimp only at hlit
    split at hlit
    · rename_i before heq
      split_ifs at hlit
      cases hlit
      refine ⟨(rev.takeWhile isDigit).reverse, ?_⟩
      have hsplit : rev = rev.takeWhile isDigit ++ '{' :: before := by
        rw [← heq, List.takeWhile_append_dropWhile]
      refine (congrArg List.reverse hsplit).trans ?_
      simp
    · cases hlit
  unfold matchLiteralTail at h
  split at h
  · rename_i rest heq
    obtain ⟨tail, htail⟩ := hdigits h
    refine ⟨tail ++ ['+', '}'], ?_⟩
    rw [← List.reverse_reverse t, heq]
    simp [htail]
  · rename_i rest _ heq
    obtain ⟨tail, htail⟩ := hdigits h
    refine ⟨tail ++ ['}'], ?_⟩
    rw [← List.reverse_reverse t, heq]
    simp [htail]
  · cases h

theorem matchLiteralTail_quote (t : Text) : matchLiteralTail (t ++ ['"']) = none := by
  unfold matchLiteralTail
  rw [List.reverse_append]
  rfl

theorem stripCR_line (line : Bytes) : stripCR (line ++ [CR]) = line := by
  simp [stripCR]

namespace Reader

section

variable {maxLine maxLiteral maxNonSync : Nat} {value : Text} {r : Reader}

theorem loop_newReader :
    loop (newReader maxLine maxLiteral maxNonSync) =
      (newReader maxLine maxLiteral maxNonSync, []) := by
  have hstop := pass_open (r := newReader maxLine maxLiteral maxNonSync) rfl (by simp [newReader])
  rw [awaitLine_short rfl (by simp [newReader])] at hstop
  exact loop_stop hstop

theorem pass_first {line rest : Bytes} (hline : LF ∉ line) :
    pass ((newReader maxLine maxLiteral maxNonSync).plus (line ++ LF :: rest)) =
      .go (takeLine line ((newReader maxLine maxLiteral maxNonSync).plus rest)).1
        (takeLine line ((newReader maxLine maxLiteral maxNonSync).plus rest)).2.event :=
  pass_line rfl (cutLine_line hline rest)

theorem ReadsBack.first {r s : Reader} {wire octets : Bytes} {ev : ReaderEvent}
    (h : ReadsBack r wire octets) (hpass : pass (r.plus (wire ++ [CR, LF])) = .go s (some ev))
    (hev : ev.isContinue = false) :
    ∃ parts v, ev = .line parts ∧ parseValues parts = .ok [v] := by
  obtain ⟨parts, v, hanswers, hparse, -⟩ := h.value
  refine ⟨parts, v, ?_, hparse⟩
  rw [answers, feed_eq, loop_go hpass, List.filter_append, Option.toList_some,
    List.filter_cons_of_pos (by simp [hev])] at hanswers
  exact (List.cons.inj hanswers).1

theorem takeLine_line {line : Bytes} (hdisc : r.discarding = none)
    (hfits : r.textLen + (stripCR line).length ≤ r.maxLineBytes) (hann : announced line = none) :
    takeLine line r = endLine (latin1Decode (stripCR line)) r := by
  unfold takeLine
  rw [hdisc]
  dsimp only
  rw [latin1Decode_length, if_neg (Nat.not_lt_of_le hfits), hann]

theorem takeLine_announced {line : Bytes} {lit : LiteralTail}
    (hdisc : r.discarding = none) (hfits : r.textLen + (stripCR line).length ≤ r.maxLineBytes)
    (hann : announced line = some lit) : takeLine line r = beginLiteral lit r := by
  unfold takeLine
  rw [hdisc]
  dsimp only
  rw [latin1Decode_length, if_neg (Nat.not_lt_of_le hfits), hann]

theorem pass_wire {wire : Bytes} (hline : LF ∉ wire)
    (hann : matchLiteralTail (latin1Decode wire) = none) (hne : wire ≠ []) :
    pass ((newReader maxLine maxLiteral maxNonSync).plus (wire ++ [CR, LF])) =
      .go (newReader maxLine maxLiteral maxNonSync)
        (some (if maxLine < wire.length then .error "line too long".toList
          else .line [.text (latin1Decode wire)])) := by
  have hcr : LF ∉ wire ++ [CR] := by
    rw [List.mem_append, not_or]
    exact ⟨hline, by decide⟩
  have hfeed : wire ++ [CR, LF] = (wire ++ [CR]) ++ LF :: [] := by simp
  have hpass : pass ((newReader maxLine maxLiteral maxNonSync).plus (wire ++ [CR, LF])) = _ :=
    hfeed ▸ pass_first hcr
  rw [hpass]
  split_ifs with hlong
  · rw [takeLine_tooLong rfl (by rw [stripCR_line]; simpa [newReader, plus] using hlong)]
    rfl
  · have hfits : 0 + (stripCR (wire ++ [CR])).length ≤ maxLine := by
      rw [stripCR_line]
      omega
    have hnone : announced (wire ++ [CR]) = none := by
      rw [announced, stripCR_line, hann]
    have htext : latin1Decode wire ≠ [] := by
      intro hnil
      exact hne (List.map_eq_nil_iff.mp hnil)
    rw [takeLine_line rfl hfits hnone, stripCR_line, endLine, if_neg (fun h => htext h.1)]
    rfl

theorem readsBack_line {wire octets : Bytes} (hline : LF ∉ wire)
    (hann : matchLiteralTail (latin1Decode wire) = none) (hne : wire ≠ []) :
    ReadsBack (newReader maxLine maxLiteral maxNonSync) wire octets ↔
      wire.length ≤ maxLine ∧
        ∃ v, parseValues [.text (latin1Decode wire)] = .ok [v] ∧ v.octets = some octets := by
  have hloop := loop_go (@pass_wire maxLine maxLiteral maxNonSync wire hline hann hne)
  rw [loop_newReader] at hloop
  constructor
  · intro h
    obtain ⟨parts, v, hanswers, hparse, hoctets⟩ := h.value
    rw [answers, feed_eq, hloop] at hanswers
    split_ifs at hanswers with hlong
    · cases hanswers
    · cases hanswers
      exact ⟨Nat.le_of_not_lt hlong, v, hparse, hoctets⟩
  · rintro ⟨hfits, v, hparse, hoctets⟩
    rw [if_neg (Nat.not_lt_of_le hfits)] at hloop
    refine ⟨⟨_, v, ?_, hparse, hoctets⟩, ?_⟩
    · rw [answers, feed_eq, hloop]
      rfl
    · rw [feed_eq, hloop]

/-- The line in front of a literal of `n` bytes. -/
def announcement (n : Nat) : Bytes := latin1Encode ('{' :: natText n ++ ['}'])

theorem latin1Decode_announcement (n : Nat) :
    latin1Decode (announcement n) = '{' :: natText n ++ ['}'] := by
  refine latin1Decode_latin1Encode fun c hc => ?_
  simp only [List.cons_append, List.mem_cons, List.mem_append, List.not_mem_nil, or_false] at hc
  obtain rfl | hc | rfl := hc
  · decide
  · exact Nat.lt_of_le_of_lt (natText_digits n c hc).2 (by decide)
  · decide

theorem announcement_length (n : Nat) : (announcement n).length = (natText n).length + 2 := by
  simp [announcement, latin1Encode]

theorem notMem_announcement (n : Nat) : LF ∉ announcement n := by
  intro hmem
  have hdecode : '\n' ∈ latin1Decode (announcement n) := List.mem_map.mpr ⟨LF, hmem, rfl⟩
  rw [latin1Decode_announcement] at hdecode
  simp only [List.cons_append, List.mem_cons, List.mem_append, List.not_mem_nil, or_false]
    at hdecode
  obtain heq | hc | heq := hdecode
  · exact absurd heq (by decide)
  · exact absurd (natText_digits n _ hc).1 (by decide)
  · exact absurd heq (by decide)

theorem wireToBytes_literalWire (bytes : Bytes) :
    wireToBytes (literalWire bytes) = announcement bytes.length ++ CR :: LF :: bytes := by
  have hdecode : (latin1Decode bytes).map (fun c => UInt8.ofNat c.toNat) = bytes :=
    latin1Encode_latin1Decode bytes
  simp only [wireToBytes, literalWire, announcement, latin1Encode, List.map_append, List.map_cons,
    List.map_nil, hdecode, List.append_assoc, List.cons_append, List.nil_append]
  rfl

theorem pass_announcement (bytes : Bytes) :
    pass ((newReader maxLine maxLiteral maxNonSync).plus
        (wireToBytes (literalWire bytes) ++ [CR, LF])) =
      .go (takeLine (announcement bytes.length ++ [CR])
          ((newReader maxLine maxLiteral maxNonSync).plus (bytes ++ [CR, LF]))).1
        (takeLine (announcement bytes.length ++ [CR])
          ((newReader maxLine maxLiteral maxNonSync).plus (bytes ++ [CR, LF]))).2.event := by
  have hcr : LF ∉ announcement bytes.length ++ [CR] := by
    rw [List.mem_append, not_or]
    exact ⟨notMem_announcement _, by decide⟩
  have hfeed : wireToBytes (literalWire bytes) ++ [CR, LF] =
      (announcement bytes.length ++ [CR]) ++ LF :: (bytes ++ [CR, LF]) := by
    rw [wireToBytes_literalWire]
    simp
  rw [hfeed]
  exact pass_first hcr

theorem loop_literal {bytes : Bytes} {size : Nat} (hsize : bytes.length = size) :
    loop (((newReader maxLine maxLiteral maxNonSync).plus (bytes ++ [CR, LF])).opened
        ⟨[], size, false⟩) =
      (newReader maxLine maxLiteral maxNonSync,
        [.line [.text [], .literal bytes, .text []]]) := by
  have htake := pass_literal
    (r := ((newReader maxLine maxLiteral maxNonSync).plus (bytes ++ [CR, LF])).opened
      ⟨[], size, false⟩) rfl (by simp [opened, plus, newReader, hsize])
  have hnext : takeLiteral size (((newReader maxLine maxLiteral maxNonSync).plus
      (bytes ++ [CR, LF])).opened ⟨[], size, false⟩) =
      { newReader maxLine maxLiteral maxNonSync with
        buffer := [CR, LF], parts := [.text [], .literal bytes] } := by
    rw [← hsize]
    simp [takeLiteral, opened, plus, newReader]
  rw [hnext] at htake
  have hend := pass_line
    (r := { newReader maxLine maxLiteral maxNonSync with
      buffer := [CR, LF], parts := [.text [], .literal bytes] }) rfl
    (@cutLine_line [CR] (by decide) [])
  have hline : takeLine [CR] { newReader maxLine maxLiteral maxNonSync with
      parts := [.text [], .literal bytes] } =
      (newReader maxLine maxLiteral maxNonSync,
        .emit (.line [.text [], .literal bytes, .text []])) := by
    rw [takeLine_line rfl (by exact Nat.zero_le _) rfl]
    rfl
  have hpass : pass { newReader maxLine maxLiteral maxNonSync with
      buffer := [CR, LF], parts := [.text [], .literal bytes] } = .go _ _ := hend.trans
    (congrArg (fun p : Reader × LineOutcome => Pass.go p.1 p.2.event) hline)
  rw [loop_go htake, loop_go hpass, loop_newReader]
  rfl

/-- The literal is announced in a line that fits, and is not too large. -/
structure LiteralFits (maxLine maxLiteral size : Nat) : Prop where
  announced : (natText size).length + 2 ≤ maxLine
  allowed : size ≤ maxLiteral
  safe : size ≤ maxSafeInteger

theorem readsBack_literal (bytes : Bytes) :
    ReadsBack (newReader maxLine maxLiteral maxNonSync) (wireToBytes (literalWire bytes)) bytes ↔
      LiteralFits maxLine maxLiteral bytes.length := by
  have hpass := @pass_announcement maxLine maxLiteral maxNonSync bytes
  have hann : announced (announcement bytes.length ++ [CR]) =
      if maxSafeInteger < bytes.length then none else some ⟨[], bytes.length, false⟩ := by
    rw [announced, stripCR_line, latin1Decode_announcement, matchLiteralTail_natText]
  have hlen : (stripCR (announcement bytes.length ++ [CR])).length =
      (natText bytes.length).length + 2 := by
    rw [stripCR_line, announcement_length]
  by_cases hline : (natText bytes.length).length + 2 ≤ maxLine
  · have hfits : 0 + (stripCR (announcement bytes.length ++ [CR])).length ≤ maxLine := by omega
    by_cases hexact : bytes.length ≤ maxSafeInteger
    · rw [if_neg (Nat.not_lt_of_le hexact)] at hann
      by_cases hsize : bytes.length ≤ maxLiteral
      · refine iff_of_true ?_ ⟨hline, hsize, hexact⟩
        rw [takeLine_literal
          (r := (newReader maxLine maxLiteral maxNonSync).plus (bytes ++ [CR, LF]))
          rfl hfits hann (by exact hsize) rfl] at hpass
        have hloop := loop_go hpass
        rw [loop_literal rfl] at hloop
        refine ⟨⟨_, _, ?_, parseValues_literal bytes, rfl⟩, ?_⟩
        · rw [answers, feed_eq, hloop]
          rfl
        · rw [feed_eq, hloop]
      · refine iff_of_false (fun h => ?_) (fun h => hsize h.allowed)
        have hrefused : takeLine (announcement bytes.length ++ [CR])
            ((newReader maxLine maxLiteral maxNonSync).plus (bytes ++ [CR, LF])) =
            ((newReader maxLine maxLiteral maxNonSync).plus (bytes ++ [CR, LF]),
              .emit (.error "literal too large".toList)) := by
          rw [takeLine_announced
            (r := (newReader maxLine maxLiteral maxNonSync).plus (bytes ++ [CR, LF]))
            rfl hfits hann, beginLiteral_eq,
            if_pos (by exact Nat.lt_of_not_le hsize), if_neg Bool.false_ne_true]
          rfl
        rw [hrefused] at hpass
        obtain ⟨parts, v, hev, -⟩ := h.first hpass rfl
        cases hev
    · refine iff_of_false (fun h => ?_) (fun h => hexact h.safe)
      rw [if_pos (Nat.lt_of_not_le hexact)] at hann
      rw [takeLine_line
        (r := (newReader maxLine maxLiteral maxNonSync).plus (bytes ++ [CR, LF]))
        rfl hfits hann, stripCR_line, latin1Decode_announcement] at hpass
      obtain ⟨parts, v, hev, hparse⟩ := h.first hpass rfl
      obtain ⟨err, herr⟩ := parseValues_brace (natText bytes.length ++ ['}'])
      have hparts : parts = [.text ('{' :: (natText bytes.length ++ ['}']))] := by
        cases hev
        rfl
      rw [hparts, herr] at hparse
      cases hparse
  · refine iff_of_false (fun h => ?_) (fun h => hline h.announced)
    have hlong : maxLine < 0 + (stripCR (announcement bytes.length ++ [CR])).length := by omega
    rw [takeLine_tooLong
      (r := (newReader maxLine maxLiteral maxNonSync).plus (bytes ++ [CR, LF]))
      rfl hlong] at hpass
    obtain ⟨parts, v, hev, -⟩ := h.first hpass rfl
    cases hev

/-- The line begins with the text `x` and goes on with a literal, or nothing of it is kept. -/
def Held (x : Text) (r : Reader) : Prop :=
  r.discarding ≠ none ∨ (r.parts = [.text x] ∧ r.literalRemaining ≠ none) ∨
    ∃ bytes parts, r.parts = .text x :: .literal bytes :: parts

theorem Held.takeLiteral {x : Text} (h : Held x r) (size : Nat) :
    Held x (takeLiteral size r) := by
  by_cases hdisc : r.discarding = none
  · right
    right
    unfold Reader.takeLiteral
    rw [if_pos hdisc]
    obtain hsome | ⟨hparts, -⟩ | ⟨bytes, parts, hparts⟩ := h
    · exact absurd hdisc hsome
    · exact ⟨_, [], by rw [hparts]; rfl⟩
    · exact ⟨bytes, _, by rw [hparts]; rfl⟩
  · exact .inl hdisc

theorem Held.answer {x : Text} {parts : List LinePart} (h : Held x r)
    (hloop : (loop r).2.filter (fun ev => !ev.isContinue) = [.line parts]) :
    ∃ bytes rest, parts = .text x :: .literal bytes :: rest := by
  induction r using loop.induct with
  | case1 r s hpass =>
    rw [loop_stop hpass] at hloop
    cases hloop
  | case2 r s ev hpass ih =>
    rw [loop_go hpass, List.filter_append] at hloop
    obtain ⟨size, hlit, -, rfl, rfl⟩ | ⟨line, rest, hlit, -, -, hcut, -, -⟩ := pass_go_cases hpass
    · exact ih (h.takeLiteral size) hloop
    · rw [pass_line hlit hcut] at hpass
      have hkept : r.discarding = none →
          ∃ bytes later, r.parts = .text x :: .literal bytes :: later := by
        intro hdisc
        obtain hsome | ⟨-, hopen⟩ | hparts := h
        · exact absurd hdisc hsome
        · exact absurd hlit hopen
        · exact hparts
      have hstep := takeLine_step line { r with buffer := rest }
      generalize htake : takeLine line { r with buffer := rest } = p at hpass hstep
      obtain ⟨q, o⟩ := p
      dsimp only at hpass hstep
      cases hstep with
      | skipped hdisc hpush =>
        cases hpass
        exact ih (.inl (by simpa using Option.ne_none_iff_exists'.mpr ⟨_, hdisc⟩)) hloop
      | dropped | tooLong | refused =>
        cases hpass
        cases hloop
      | @literal lit hdisc hfits hann hsize =>
        obtain ⟨bytes, later, hparts⟩ := hkept hdisc
        have hopened : Held x (opened { r with buffer := rest } lit) :=
          .inr (.inr ⟨bytes, later ++ [LinePart.text lit.before], by simp [opened, hparts]⟩)
        split_ifs at hpass
        · cases hpass
          exact ih hopened hloop
        · cases hpass
          exact ih hopened hloop
      | tooLarge =>
        cases hpass
        exact ih (.inl (by simp)) hloop
      | @line parts' hdisc hfits hann =>
        obtain ⟨bytes, later, hparts⟩ := hkept hdisc
        rw [takeLine_line hdisc hfits hann, endLine] at htake
        cases hpass
        have hevent := congrArg Prod.snd htake
        rw [hparts] at hevent
        have hsame := (List.cons.inj hloop).1
        rw [← ReaderEvent.line.inj hsame]
        exact ⟨bytes, _, by simpa using hevent.symm⟩

theorem stripCR_cons {b : UInt8} (hb : b ≠ CR) (line : Bytes) :
    stripCR (b :: line) = b :: stripCR line := by
  cases line with
  | nil => simp [stripCR, hb]
  | cons c line => exact stripCR_append [b] (by simp)

theorem stripCR_begins (line : Bytes) : stripCR line <+: line := by
  unfold stripCR
  split_ifs
  · exact List.dropLast_prefix line
  · exact List.prefix_refl line

theorem quoteMailboxName_lt (h : ∀ c ∈ value, c.toNat < 256) :
    ∀ c ∈ quoteMailboxName value, c.toNat < 256 := by
  intro c hc
  by_cases hslash : c = '\\'
  · rw [hslash]
    decide
  · rw [quoteMailboxName_eq, List.mem_append, List.mem_append, mem_escapeQuoted hslash,
      List.mem_singleton] at hc
    obtain (hc | hc) | hc := hc
    · rw [hc]
      decide
    · exact h c hc
    · rw [hc]
      decide

theorem cut_quoted {line rest : Bytes}
    (hvalue : ∀ c ∈ value, c.toNat < 256)
    (hcut : latin1Encode (quoteMailboxName value) = line ++ LF :: rest) :
    ∃ x, latin1Decode (stripCR line) = '"' :: x ∧ x <+: escapeQuoted value := by
  have hesc := quoteMailboxName_lt hvalue
  have htext : quoteMailboxName value = latin1Decode line ++ '\n' :: latin1Decode rest := by
    rw [← latin1Decode_latin1Encode hesc, hcut, latin1Decode_append]
    rfl
  cases line with
  | nil =>
    have hfirst : '"' = '\n' := (List.cons.inj htext).1
    exact absurd hfirst (by decide)
  | cons b line =>
    obtain ⟨hfirst, hrest⟩ := List.cons.inj htext
    have hb : b ≠ CR := by
      rintro rfl
      exact absurd hfirst (by decide)
    refine ⟨latin1Decode (stripCR line), ?_, ?_⟩
    · rw [stripCR_cons hb]
      exact congrArg (· :: latin1Decode (stripCR line)) hfirst.symm
    · have hlong : latin1Decode line <+: escapeQuoted value ++ ['"'] := ⟨_, hrest.symm⟩
      have hlen : (latin1Decode line).length ≤ (escapeQuoted value).length := by
        have hlengths : (escapeQuoted value ++ ['"']).length =
            (latin1Decode line ++ '\n' :: latin1Decode rest).length := congrArg List.length hrest
        simp only [List.length_append, List.length_cons, List.length_nil] at hlengths
        omega
      exact ((stripCR_begins line).map _).trans
        (List.prefix_of_prefix_length_le hlong (List.prefix_append _ _) hlen)

theorem not_readsBack_newline (octets : Bytes) (hlf : '\n' ∈ value)
    (hvalue : ∀ c ∈ value, c.toNat < 256) :
    ¬ReadsBack (newReader maxLine maxLiteral maxNonSync) (latin1Encode (quoteMailboxName value))
      octets := by
  intro h
  have hmem : LF ∈ latin1Encode (quoteMailboxName value) := by
    refine List.mem_map.mpr ⟨'\n', ?_, rfl⟩
    rw [quoteMailboxName_eq, List.mem_append, List.mem_append, mem_escapeQuoted (by decide)]
    exact .inl (.inr hlf)
  obtain ⟨line, rest, hcut, hline⟩ := List.eq_append_cons_of_mem hmem
  obtain ⟨x, htext, hx⟩ := cut_quoted hvalue hcut
  have hpass := @pass_first maxLine maxLiteral maxNonSync line (rest ++ [CR, LF]) hline
  have hfeed : line ++ LF :: (rest ++ [CR, LF]) =
      latin1Encode (quoteMailboxName value) ++ [CR, LF] := by
    rw [hcut]
    simp
  rw [hfeed] at hpass
  by_cases hfits : 0 + (stripCR line).length ≤ maxLine
  · cases hann : announced line with
    | none =>
      rw [takeLine_line rfl hfits hann, htext] at hpass
      obtain ⟨parts, v, hev, hparse⟩ := h.first hpass rfl
      obtain ⟨err, herr⟩ := @parseValues_broken value x [] hx (.inl rfl)
      have hparts : parts = [.text ('"' :: x)] := by
        cases hev
        rfl
      rw [hparts, herr] at hparse
      cases hparse
    | some lit =>
      have hmatch : matchLiteralTail ('"' :: x) = some lit := by
        rw [← htext]
        exact hann
      obtain ⟨tail, htail⟩ := matchLiteralTail_text hmatch
      -- what stands before the brace still has the open quote
      obtain ⟨y, hbefore, hy⟩ : ∃ y, lit.before = '"' :: y ∧ y <+: x := by
        cases hb : lit.before with
        | nil =>
          rw [hb] at htail
          exact absurd (List.cons.inj htail).1 (by decide)
        | cons c y =>
          rw [hb, List.cons_append] at htail
          obtain ⟨rfl, hxy⟩ := List.cons.inj htail
          exact ⟨y, rfl, _, hxy.symm⟩
      have hopened : Held ('"' :: y)
          (((newReader maxLine maxLiteral maxNonSync).plus (rest ++ [CR, LF])).opened lit) :=
        .inr (.inl ⟨by rw [← hbefore]; rfl, by simp [opened]⟩)
      have hanswer : ∀ {q : Reader} {ev : Option ReaderEvent},
          pass ((newReader maxLine maxLiteral maxNonSync).plus
            (latin1Encode (quoteMailboxName value) ++ [CR, LF])) = .go q ev →
          ev.toList.filter (fun ev => !ev.isContinue) = [] → Held ('"' :: y) q → False := by
        intro q ev hgo hev hheld
        obtain ⟨parts, v, hanswers, hparse, -⟩ := h.value
        rw [answers, feed_eq, loop_go hgo, List.filter_append, hev, List.nil_append] at hanswers
        obtain ⟨bytes, later, rfl⟩ := hheld.answer hanswers
        obtain ⟨err, herr⟩ := @parseValues_broken value y (.literal bytes :: later)
          (hy.trans hx) (.inr ⟨_, _, rfl⟩)
        rw [herr] at hparse
        cases hparse
      rw [takeLine_announced rfl hfits hann, beginLiteral_eq] at hpass
      split_ifs at hpass
      · exact hanswer hpass rfl (.inl (by simp))
      · obtain ⟨parts, v, hev, -⟩ := h.first hpass rfl
        cases hev
      · exact hanswer hpass rfl hopened
      · exact hanswer hpass rfl hopened
  · have hlong : maxLine < 0 + (stripCR line).length := Nat.lt_of_not_le hfits
    rw [takeLine_tooLong rfl hlong] at hpass
    obtain ⟨parts, v, hev, -⟩ := h.first hpass rfl
    cases hev

theorem readsBack_quoted (hvalue : ∀ c ∈ value, c.toNat < 256) :
    ReadsBack (newReader maxLine maxLiteral maxNonSync) (latin1Encode (quoteMailboxName value))
        (latin1Encode value) ↔
      '\n' ∉ value ∧ (quoteMailboxName value).length ≤ maxLine := by
  by_cases hlf : '\n' ∈ value
  · exact iff_of_false (not_readsBack_newline _ hlf hvalue) fun h => h.1 hlf
  have hplain : '\n' ∉ quoteMailboxName value := by
    rw [quoteMailboxName_eq, List.mem_append, List.mem_append, mem_escapeQuoted (by decide)]
    simp [hlf]
  have hesc := quoteMailboxName_lt hvalue
  have hdecode := latin1Decode_latin1Encode hesc
  have hline : LF ∉ latin1Encode (quoteMailboxName value) := by
    intro hmem
    have hchar : '\n' ∈ latin1Decode (latin1Encode (quoteMailboxName value)) :=
      List.mem_map.mpr ⟨LF, hmem, rfl⟩
    rw [hdecode] at hchar
    exact hplain hchar
  have hann : matchLiteralTail (latin1Decode (latin1Encode (quoteMailboxName value))) = none := by
    rw [hdecode, quoteMailboxName_eq]
    exact matchLiteralTail_quote _
  have hlen : (latin1Encode (quoteMailboxName value)).length = (quoteMailboxName value).length :=
    List.length_map _
  rw [readsBack_line hline hann (by simp [latin1Encode, quoteMailboxName_eq]), hdecode, hlen]
  constructor
  · rintro ⟨hfits, -⟩
    exact ⟨hlf, hfits⟩
  · rintro ⟨-, hfits⟩
    exact ⟨hfits, _, parseValues_quoted value, rfl⟩

end

def quotedSize (value : Text) : Nat :=
  (utf8Encode value).length + value.countP (fun c => decide (c = '\\' ∨ c = '"')) + 2

theorem quotedSize_eq (value : Text) :
    (quoteMailboxName (octetText value)).length = quotedSize value := by
  have hesc : ∀ s : Text, (escapeQuoted (octetText s)).length =
      (utf8Encode s).length + s.countP (fun c => decide (c = '\\' ∨ c = '"')) := by
    intro s
    induction s with
    | nil => rfl
    | cons c s ih =>
      have hlength : ∀ t : Text, (octetText t).length = (utf8Encode t).length :=
        fun t => latin1Decode_length _
      rw [← List.singleton_append, octetText_append, escapeQuoted_append, List.length_append, ih,
        ← octetText_escapeQuoted, hlength, List.countP_append, utf8Encode, utf8Encode, utf8Encode,
        List.flatMap_append, List.length_append]
      by_cases hc : c = '\\' ∨ c = '"'
      · rw [escapeQuoted_special hc]
        obtain rfl | rfl := hc
        · simp +arith
          decide
        · simp +arith
          decide
      · rw [escapeQuoted_other hc]
        simp [escapeQuoted, hc]
        omega
  rw [quoteMailboxName_eq, quotedSize, List.length_append, List.length_append, hesc]
  simp
  omega

theorem nstring_safe {value : Text} (h : quotedSafe value = true) :
    nstring (some value) = quoteMailboxName value := by
  unfold nstring
  dsimp only
  rw [if_pos h]
  split_ifs with hplain
  · rw [quoteMailboxName_eq, escapeQuoted_plain fun c hc => ?_]
    refine ⟨?_, ?_⟩
    · rintro rfl
      exact hplain.2.2 hc
    · rintro rfl
      exact hplain.2.1 hc
  · rfl

theorem nstring_other {value : Text} (h : ¬quotedSafe value = true) :
    nstring (some value) = literalWire (utf8Encode value) := by
  unfold nstring
  dsimp only
  rw [if_neg (fun hplain => h hplain.1), if_neg h]

/-- What a string written by `nstring` needs of the reader that reads it. -/
def NstringFits (maxLine maxLiteral : Nat) (value : Text) : Prop :=
  if quotedSafe value then quotedSize value ≤ maxLine
  else LiteralFits maxLine maxLiteral (utf8Encode value).length

/-- With limits that leave room, strings of `nstring` and literals are always read back, and a
mailbox name if and only if it has no line feed. -/
theorem output_strings (maxLine maxLiteral maxNonSync : Nat) (s : Text) (bytes : Bytes) :
    (ReadsBack (newReader maxLine maxLiteral maxNonSync) (wireToBytes (nstring (some s)))
        (utf8Encode s) ↔ NstringFits maxLine maxLiteral s) ∧
      (ReadsBack (newReader maxLine maxLiteral maxNonSync) (wireToBytes (literalWire bytes))
        bytes ↔ LiteralFits maxLine maxLiteral bytes.length) ∧
      (ReadsBack (newReader maxLine maxLiteral maxNonSync) (utf8Encode (quoteMailboxName s))
        (utf8Encode s) ↔ '\n' ∉ s ∧ quotedSize s ≤ maxLine) := by
  have hquoted : ReadsBack (newReader maxLine maxLiteral maxNonSync)
      (utf8Encode (quoteMailboxName s)) (utf8Encode s) ↔
      '\n' ∉ s ∧ quotedSize s ≤ maxLine := by
    have hbytes := @readsBack_quoted maxLine maxLiteral maxNonSync (octetText s) (octetText_lt s)
    rw [latin1Encode_octetText, ← utf8Encode_quoteMailboxName, mem_octetText (by decide),
      quotedSize_eq] at hbytes
    exact hbytes
  refine ⟨?_, readsBack_literal bytes, hquoted⟩
  unfold NstringFits
  split_ifs with hsafe
  · have hascii : ∀ c ∈ s, 0x20 ≤ c.toNat ∧ c.toNat ≤ 0x7e := by
      simpa [quotedSafe] using hsafe
    have hlf : '\n' ∉ s := by
      intro hmem
      exact absurd (hascii _ hmem).1 (by decide)
    have hwire : wireToBytes (nstring (some s)) = utf8Encode (quoteMailboxName s) := by
      rw [nstring_safe hsafe, utf8Encode_quoteMailboxName, octetText_ascii fun c hc => ?_]
      · rfl
      · exact Nat.lt_of_le_of_lt (hascii c hc).2 (by decide)
    rw [hwire, hquoted]
    exact and_iff_right hlf
  · rw [nstring_other hsafe]
    exact readsBack_literal _

/-- A mailbox created with a literal, and the response line its name ends. -/
def brokenName : Text := "a\r\n* 5 EXISTS".toList

theorem output_strings_fails :
    ¬ReadsBack (newReader maxImapLineBytes maxMessageBytes defaultMaxNonSync)
      (utf8Encode (quoteMailboxName brokenName)) (utf8Encode brokenName) := by
  have hascii : ∀ c ∈ brokenName, c.toNat < 128 := by decide
  rw [utf8Encode_quoteMailboxName, octetText_ascii hascii]
  refine not_readsBack_newline _ (by decide) fun c hc => ?_
  exact Nat.lt_trans (hascii c hc) (by decide)

end Reader

end Ionosphere.Imap
