import Ionosphere.Imap.Reader

/-! How the reader frames a stream that arrives in pieces. A line that is not
finished when a chunk ends may be thrown away, and with it the end of a
non-synchronising literal it was about to announce; a line that arrives whole and is
too long is refused without a look at its end. `tidy` reads the stream by itself and
asks that neither matters: every line fits with its `CR`, or is too long and
announces nothing. -/
namespace Ionosphere.Imap

open Ionosphere.Js Ionosphere.Core

variable {r s : Reader} {line : Bytes} {x : Bytes} {size : Nat} {message : Text} {lit : LiteralTail}
  {chunks : List Bytes}

variable {rest : Bytes} {ev : Option ReaderEvent}

/-- The literal announced at the end of a line, as its bytes stand before the `LF`. -/
def announced (line : Bytes) : Option LiteralTail := matchLiteralTail (latin1Decode (stripCR line))

/-- The size of a literal whose bytes come whether or not the line is accepted. -/
def pushed (line : Bytes) : Option Nat :=
  match announced line with
  | some lit => if lit.nonSync then some lit.size else none
  | none => none

theorem cutLine_line (h : LF ∉ line) (rest : Bytes) :
    cutLine (line ++ LF :: rest) = some (line, rest) := by
  induction line with
  | nil => simp [cutLine]
  | cons b line ih =>
    rw [List.mem_cons, not_or] at h
    rw [List.cons_append, cutLine, if_neg (Ne.symm h.1), ih h.2]
    rfl

theorem cutLine_none {buf : Bytes} (h : LF ∉ buf) : cutLine buf = none := by
  induction buf with
  | nil => rfl
  | cons b bs ih =>
    rw [List.mem_cons, not_or] at h
    rw [cutLine, if_neg (Ne.symm h.1), ih h.2]
    rfl

theorem cutLine_cases (buf : Bytes) :
    (LF ∉ buf ∧ cutLine buf = none) ∨
      ∃ line rest, LF ∉ line ∧ buf = line ++ LF :: rest ∧ cutLine buf = some (line, rest) := by
  by_cases hmem : LF ∈ buf
  · obtain ⟨line, rest, hbuf, hline⟩ := List.eq_append_cons_of_mem hmem
    exact .inr ⟨line, rest, hline, hbuf, by rw [hbuf, cutLine_line hline]⟩
  · exact .inl ⟨hmem, cutLine_none hmem⟩

theorem stripCR_length (line : Bytes) : (stripCR line).length ≤ line.length := by
  unfold stripCR
  split_ifs
  · simp
  · exact le_rfl

theorem stripCR_append (a : Bytes) {b : Bytes} (hb : b ≠ []) :
    stripCR (a ++ b) = a ++ stripCR b := by
  unfold stripCR
  rw [List.getLast?_append_of_ne_nil a hb]
  split_ifs
  · exact List.dropLast_append_of_ne_nil hb
  · rfl

theorem literalDigits_append {nonSync : Bool} {rev : Text}
    (h : literalDigits nonSync rev = some lit) (q : Text) :
    literalDigits nonSync (rev ++ q) = some { lit with before := q.reverse ++ lit.before } := by
  unfold literalDigits at h ⊢
  have hne : rev.dropWhile isDigit ≠ [] := by
    intro hnil
    simp [hnil] at h
  have hall : ¬∀ c ∈ rev, isDigit c := by
    intro hdigits
    exact hne (List.dropWhile_eq_nil_iff.mpr hdigits)
  rw [List.dropWhile_append, if_neg (by simpa using hne), List.takeWhile_append]
  have hlen : (rev.takeWhile isDigit).length ≠ rev.length := by
    intro hlen
    refine hall fun c hc => ?_
    have htake : rev.takeWhile isDigit = rev := (List.takeWhile_prefix _).eq_of_length hlen
    rw [← htake] at hc
    exact List.mem_takeWhile_imp hc
  rw [if_neg hlen]
  cases hdrop : rev.dropWhile isDigit with
  | nil => exact absurd hdrop hne
  | cons c before =>
    simp only [hdrop, List.cons_append] at h ⊢
    split at h
    · rename_i heq
      cases heq
      split_ifs at h ⊢
      cases h
      simp
    · cases h

theorem matchLiteralTail_append {t : Text}
    (h : matchLiteralTail t = some lit) (p : Text) :
    matchLiteralTail (p ++ t) = some { lit with before := p ++ lit.before } := by
  unfold matchLiteralTail at h ⊢
  rw [List.reverse_append]
  split at h
  · rename_i rest heq
    rw [heq]
    simpa using literalDigits_append h p.reverse
  · rename_i rest hplus heq
    rw [heq]
    have hrest : ∃ c cs, rest = c :: cs ∧ c ≠ '+' := by
      cases rest with
      | nil => simp [literalDigits] at h
      | cons c cs => exact ⟨c, cs, rfl, fun hc => hplus cs (by rw [hc])⟩
    obtain ⟨c, cs, rfl, hc⟩ := hrest
    have hmatch := literalDigits_append h p.reverse
    rw [List.reverse_reverse] at hmatch
    rw [← hmatch]
    simp only [List.cons_append]
    split
    · rename_i heq'
      cases heq'
      exact absurd rfl hc
    · rename_i heq'
      cases heq'
      rfl
    · rename_i hnone
      exact absurd rfl (hnone _)
  · cases h

theorem pushed_append {a b : Bytes} (h : pushed (a ++ b) = none) : pushed b = none := by
  cases b with
  | nil => rfl
  | cons c b =>
    unfold pushed announced at h ⊢
    rw [stripCR_append a (by simp)] at h
    have hdecode : latin1Decode (a ++ stripCR (c :: b)) =
        latin1Decode a ++ latin1Decode (stripCR (c :: b)) := by
      simp [latin1Decode]
    cases hmatch : matchLiteralTail (latin1Decode (stripCR (c :: b))) with
    | none => rfl
    | some lit =>
      rw [hdecode, matchLiteralTail_append hmatch] at h
      exact h

namespace Reader

def plus (r : Reader) (x : Bytes) : Reader := { r with buffer := r.buffer ++ x }

theorem plus_plus (r : Reader) (x y : Bytes) : (r.plus x).plus y = r.plus (x ++ y) := by
  simp [plus]

theorem feed_eq (chunk : Bytes) (r : Reader) : feed chunk r = loop (r.plus chunk) := rfl

theorem loop_stop (h : pass r = .stop s) : loop r = (s, []) := by
  rw [loop.eq_def]
  split
  · rename_i heq
    rw [h] at heq
    cases heq
    rfl
  · rename_i heq
    rw [h] at heq
    cases heq

theorem loop_go (h : pass r = .go s ev) :
    loop r = ((loop s).1, ev.toList ++ (loop s).2) := by
  rw [loop.eq_def]
  split
  · rename_i heq
    rw [h] at heq
    cases heq
  · rename_i heq
    rw [h] at heq
    cases heq
    rfl

def takeLine (line : Bytes) (r : Reader) : Reader × LineOutcome :=
  match r.discarding with
  | some message => endDiscarded message (latin1Decode (stripCR line)) r
  | none =>
    if r.maxLineBytes < r.textLen + (latin1Decode (stripCR line)).length then
      ({ r with textLen := 0, parts := [] }, .emit (.error "line too long".toList))
    else
      match announced line with
      | some lit => beginLiteral lit r
      | none => endLine (latin1Decode (stripCR line)) r

def takeLiteral (size : Nat) (r : Reader) : Reader :=
  { r with
    buffer := r.buffer.drop size
    parts :=
      if r.discarding = none then
        r.parts ++ [.literal (r.literalChunks.flatten ++ r.buffer.take size)]
      else r.parts
    literalChunks := []
    literalRemaining := none }

def LineOutcome.event : LineOutcome → Option ReaderEvent
  | .emit ev => some ev
  | _ => none

theorem takeLine_plus (line x : Bytes) (r : Reader) :
    takeLine line (r.plus x) = ((takeLine line r).1.plus x, (takeLine line r).2) := by
  unfold takeLine plus
  dsimp only
  split
  · unfold endDiscarded
    split
    · split_ifs <;> rfl
    · rfl
  · split_ifs
    · rfl
    · split
      · unfold beginLiteral
        dsimp only
        split_ifs <;> rfl
      · rfl

theorem takeLine_ne_wait (line : Bytes) (r : Reader) : (takeLine line r).2 ≠ .wait := by
  unfold takeLine
  split
  · unfold endDiscarded
    split
    · split_ifs <;> simp
    · simp
  · split_ifs
    · simp
    · split
      · unfold beginLiteral
        dsimp only
        split_ifs <;> simp
      · simp [endLine]

theorem pass_line (hlit : r.literalRemaining = none)
    (hcut : cutLine r.buffer = some (line, rest)) :
    pass r = .go (takeLine line { r with buffer := rest }).1
      (takeLine line { r with buffer := rest }).2.event := by
  have hline : consumeLine r = takeLine line { r with buffer := rest } := by
    unfold consumeLine takeLine
    rw [hcut]
    rfl
  have hwait := takeLine_ne_wait line { r with buffer := rest }
  unfold pass
  rw [hline]
  generalize takeLine line { r with buffer := rest } = p at hwait ⊢
  rw [hlit]
  obtain ⟨s, o⟩ := p
  cases o with
  | wait => exact absurd rfl hwait
  | skip => rfl
  | emit ev => rfl

theorem pass_open (hlit : r.literalRemaining = none) (hopen : LF ∉ r.buffer) :
    pass r = .stop (awaitLine r) := by
  unfold pass consumeLine
  rw [hlit, cutLine_none hopen]

theorem pass_literal (hlit : r.literalRemaining = some size)
    (hsize : size ≤ r.buffer.length) : pass r = .go (takeLiteral size r) none := by
  have htake : min size r.buffer.length = size := Nat.min_eq_left hsize
  unfold pass consumeLiteral
  rw [hlit]
  dsimp only
  rw [htake, Nat.sub_self]
  rw [if_pos rfl, if_pos rfl]
  unfold takeLiteral
  congr 2
  by_cases hdisc : r.discarding = none
  · rw [if_pos hdisc, if_pos hdisc]
    by_cases hpos : 0 < size
    · rw [if_pos ⟨hpos, hdisc⟩, List.flatten_append]
      simp
    · have hzero : size = 0 := Nat.eq_zero_of_not_pos hpos
      simp [hzero]
  · rw [if_neg hdisc, if_neg hdisc]

def openLiteral (size : Nat) (r : Reader) : Reader :=
  { r with
    buffer := []
    literalChunks :=
      if 0 < r.buffer.length ∧ r.discarding = none then r.literalChunks ++ [r.buffer]
      else r.literalChunks
    literalRemaining := some (size - r.buffer.length) }

theorem pass_unfinished (hlit : r.literalRemaining = some size)
    (hsize : r.buffer.length < size) : pass r = .stop (openLiteral size r) := by
  have htake : min size r.buffer.length = r.buffer.length := Nat.min_eq_right hsize.le
  unfold pass consumeLiteral
  rw [hlit]
  dsimp only
  have hmore : size - r.buffer.length ≠ 0 := by omega
  rw [htake, if_neg hmore]
  simp [openLiteral]

theorem pass_go_cases (h : pass r = .go s ev) :
    (∃ size, r.literalRemaining = some size ∧ size ≤ r.buffer.length ∧ s = takeLiteral size r ∧
      ev = none) ∨
    (∃ line rest, r.literalRemaining = none ∧ LF ∉ line ∧ r.buffer = line ++ LF :: rest ∧
      cutLine r.buffer = some (line, rest) ∧ s = (takeLine line { r with buffer := rest }).1 ∧
      ev = (takeLine line { r with buffer := rest }).2.event) := by
  obtain hlit | ⟨size, hlit⟩ := Option.eq_none_or_eq_some r.literalRemaining
  · obtain ⟨hopen, -⟩ | ⟨line, rest, hline, hbuf, hcut⟩ := cutLine_cases r.buffer
    · rw [pass_open hlit hopen] at h
      cases h
    · rw [pass_line hlit hcut] at h
      cases h
      exact .inr ⟨line, rest, hlit, hline, hbuf, hcut, rfl, rfl⟩
  · by_cases hsize : size ≤ r.buffer.length
    · rw [pass_literal hlit hsize] at h
      cases h
      exact .inl ⟨size, hlit, hsize, rfl, rfl⟩
    · rw [pass_unfinished hlit (by omega)] at h
      cases h

theorem pass_stop_cases (h : pass r = .stop s) :
    (∃ size, r.literalRemaining = some size ∧ r.buffer.length < size ∧ s = openLiteral size r) ∨
    (r.literalRemaining = none ∧ LF ∉ r.buffer ∧ s = awaitLine r) := by
  cases hlit : r.literalRemaining with
  | some size =>
    by_cases hsize : size ≤ r.buffer.length
    · rw [pass_literal hlit hsize] at h
      cases h
    · rw [pass_unfinished hlit (by omega)] at h
      cases h
      exact .inl ⟨size, rfl, by omega, rfl⟩
  | none =>
    obtain ⟨hopen, -⟩ | ⟨line, rest, -, -, hcut⟩ := cutLine_cases r.buffer
    · rw [pass_open hlit hopen] at h
      cases h
      exact .inr ⟨rfl, hopen, rfl⟩
    · rw [pass_line hlit hcut] at h
      cases h

theorem pass_plus (h : pass r = .go s ev) (x : Bytes) :
    pass (r.plus x) = .go (s.plus x) ev := by
  obtain ⟨size, hlit, hsize, rfl, rfl⟩ | ⟨line, rest, hlit, hline, hbuf, -, rfl, rfl⟩ :=
    pass_go_cases h
  · have hlong : size ≤ (r.plus x).buffer.length := by
      simp only [plus, List.length_append]
      omega
    rw [pass_literal (r := r.plus x) hlit hlong]
    simp only [takeLiteral, plus, List.take_append_of_le_length hsize,
      List.drop_append_of_le_length hsize]
  · have hcut' : cutLine (r.plus x).buffer = some (line, rest ++ x) := by
      rw [plus, hbuf, List.append_assoc, List.cons_append, cutLine_line hline]
    have htake : takeLine line { r.plus x with buffer := rest ++ x } =
        ((takeLine line { r with buffer := rest }).1.plus x,
          (takeLine line { r with buffer := rest }).2) :=
      takeLine_plus line x { r with buffer := rest }
    rw [pass_line (r := r.plus x) hlit hcut', htake]

end Reader

namespace Reader

def literalCap (r : Reader) (lit : LiteralTail) : Nat :=
  if lit.nonSync then min r.maxLiteralBytes r.maxNonSyncLiteralBytes else r.maxLiteralBytes

def opened (r : Reader) (lit : LiteralTail) : Reader :=
  { r with
    parts := r.parts ++ [.text lit.before]
    textLen := r.textLen + lit.before.length
    literalRemaining := some lit.size }

inductive LineStep (r : Reader) (line : Bytes) : Reader → LineOutcome → Prop
  | skipped {message : Text} {size : Nat} (hdisc : r.discarding = some message)
      (hpush : pushed line = some size) :
      LineStep r line { r with literalRemaining := some size } .skip
  | dropped {message : Text} (hdisc : r.discarding = some message) (hpush : pushed line = none) :
      LineStep r line { r with discarding := none, textLen := 0, parts := [] }
        (.emit (.error message))
  | tooLong (hdisc : r.discarding = none)
      (hlong : r.maxLineBytes < r.textLen + (stripCR line).length) :
      LineStep r line { r with textLen := 0, parts := [] }
        (.emit (.error "line too long".toList))
  | literal {lit : LiteralTail} (hdisc : r.discarding = none)
      (hfits : r.textLen + (stripCR line).length ≤ r.maxLineBytes)
      (hlit : announced line = some lit) (hsize : lit.size ≤ r.literalCap lit) :
      LineStep r line (r.opened lit) (if lit.nonSync then .skip else .emit (.continue lit.size))
  | tooLarge {lit : LiteralTail} (hdisc : r.discarding = none)
      (hfits : r.textLen + (stripCR line).length ≤ r.maxLineBytes)
      (hlit : announced line = some lit) (hsize : r.literalCap lit < lit.size)
      (hsync : lit.nonSync = true) :
      LineStep r line { r.opened lit with discarding := some "literal too large".toList } .skip
  | refused {lit : LiteralTail} (hdisc : r.discarding = none)
      (hfits : r.textLen + (stripCR line).length ≤ r.maxLineBytes)
      (hlit : announced line = some lit) (hsize : r.literalCap lit < lit.size)
      (hsync : lit.nonSync = false) :
      LineStep r line { r with parts := [], textLen := 0 }
        (.emit (.error "literal too large".toList))
  | line {parts : List LinePart} (hdisc : r.discarding = none)
      (hfits : r.textLen + (stripCR line).length ≤ r.maxLineBytes)
      (hlit : announced line = none) :
      LineStep r line { r with parts := [], textLen := 0 } (.emit (.line parts))

theorem beginLiteral_eq (lit : LiteralTail) (r : Reader) :
    beginLiteral lit r =
      if r.literalCap lit < lit.size then
        if lit.nonSync then
          ({ r.opened lit with discarding := some "literal too large".toList }, .skip)
        else ({ r with parts := [], textLen := 0 }, .emit (.error "literal too large".toList))
      else if lit.nonSync then (r.opened lit, .skip)
      else (r.opened lit, .emit (.continue lit.size)) := rfl

theorem takeLine_step (line : Bytes) (r : Reader) :
    LineStep r line (takeLine line r).1 (takeLine line r).2 := by
  unfold takeLine
  split
  · rename_i message hdisc
    unfold endDiscarded
    dsimp only
    have hpush : pushed line = match matchLiteralTail (latin1Decode (stripCR line)) with
      | some lit => if lit.nonSync then some lit.size else none
      | none => none := rfl
    split
    · rename_i lit hlit
      rw [hlit] at hpush
      dsimp only at hpush
      split_ifs at hpush ⊢
      · exact .skipped hdisc hpush
      · exact .dropped hdisc hpush
    · rename_i hlit
      rw [hlit] at hpush
      exact .dropped hdisc hpush
  · rename_i hdisc
    rw [latin1Decode_length]
    split_ifs with hlong
    · exact .tooLong hdisc hlong
    · have hfits := Nat.le_of_not_lt hlong
      split
      · rename_i lit hlit
        rw [beginLiteral_eq]
        split_ifs with hsize hsync hsync
        · exact .tooLarge hdisc hfits hlit hsize hsync
        · exact .refused hdisc hfits hlit hsize (by simpa using hsync)
        · have hstep := LineStep.literal hdisc hfits hlit (Nat.le_of_not_lt hsize)
          rwa [if_pos hsync] at hstep
        · have hstep := LineStep.literal hdisc hfits hlit (Nat.le_of_not_lt hsize)
          rwa [if_neg hsync] at hstep
      · rename_i hlit
        exact .line hdisc hfits hlit

end Reader

/-- The lines of a stream, as they come after `textLen` bytes of text of the same
logical line, or while a logical line is being thrown away. Each one fits together with
its `CR`, or is too long without it and announces nothing; one that is thrown away
announces nothing. -/
def tidy (maxLine : Nat) (cap : LiteralTail → Nat) (textLen : Nat) (discarding : Bool)
    (s : Bytes) : Bool :=
  match _h : cutLine s with
  | none => true
  | some (line, rest) =>
    if discarding then (pushed line).isNone && tidy maxLine cap 0 false rest
    else if textLen + line.length ≤ maxLine then
      match announced line with
      | none => tidy maxLine cap 0 false rest
      | some lit =>
        if lit.size ≤ cap lit then
          tidy maxLine cap (textLen + lit.before.length) false (rest.drop lit.size)
        else if lit.nonSync then
          tidy maxLine cap (textLen + lit.before.length) true (rest.drop lit.size)
        else tidy maxLine cap 0 false rest
    else
      decide (maxLine < textLen + (stripCR line).length) && (pushed line).isNone &&
        tidy maxLine cap 0 false rest
termination_by s.length
decreasing_by
  all_goals
    have hlen := length_of_cutLine _h
    first
      | exact hlen
      | exact lt_of_le_of_lt (by simp) hlen

section Tidy

variable {maxLine : Nat} {cap : LiteralTail → Nat} {textLen : Nat} {s : Bytes}

theorem tidy_open {discarding : Bool} (h : cutLine s = none) :
    tidy maxLine cap textLen discarding s = true := by
  rw [tidy.eq_def]
  split
  · rfl
  · rename_i heq
    rw [h] at heq
    cases heq

theorem tidy_discarding (h : cutLine s = some (line, rest)) :
    tidy maxLine cap textLen true s = true ↔
      pushed line = none ∧ tidy maxLine cap 0 false rest = true := by
  rw [tidy.eq_def]
  split
  · rename_i heq
    rw [h] at heq
    cases heq
  · rename_i heq
    rw [h] at heq
    cases heq
    simp

theorem tidy_long (h : cutLine s = some (line, rest)) (hlong : maxLine < textLen + line.length) :
    tidy maxLine cap textLen false s = true ↔
      maxLine < textLen + (stripCR line).length ∧ pushed line = none ∧
        tidy maxLine cap 0 false rest = true := by
  rw [tidy.eq_def]
  split
  · rename_i heq
    rw [h] at heq
    cases heq
  · rename_i heq
    rw [h] at heq
    cases heq
    rw [if_neg (by simp), if_neg (by omega)]
    simp [and_assoc]

theorem tidy_fits (h : cutLine s = some (line, rest)) (hfits : textLen + line.length ≤ maxLine) :
    tidy maxLine cap textLen false s =
      match announced line with
      | none => tidy maxLine cap 0 false rest
      | some lit =>
        if lit.size ≤ cap lit then
          tidy maxLine cap (textLen + lit.before.length) false (rest.drop lit.size)
        else if lit.nonSync then
          tidy maxLine cap (textLen + lit.before.length) true (rest.drop lit.size)
        else tidy maxLine cap 0 false rest := by
  rw [tidy.eq_def]
  split
  · rename_i heq
    rw [h] at heq
    cases heq
  · rename_i heq
    rw [h] at heq
    cases heq
    rw [if_neg (by simp), if_pos hfits]

end Tidy

namespace Reader

/-- What the reader has still to read, when `x` comes behind its buffer, is tidy. -/
def Tidy (r : Reader) (x : Bytes) : Prop :=
  tidy r.maxLineBytes r.literalCap r.textLen r.discarding.isSome
    ((r.buffer ++ x).drop (r.literalRemaining.getD 0)) = true

theorem takeLine_tooLong (hdisc : r.discarding = none)
    (hlong : r.maxLineBytes < r.textLen + (stripCR line).length) :
    takeLine line r =
      ({ r with textLen := 0, parts := [] }, .emit (.error "line too long".toList)) := by
  unfold takeLine
  rw [hdisc]
  dsimp only
  rw [latin1Decode_length, if_pos hlong]

theorem takeLine_dropped (hdisc : r.discarding = some message) (hpush : pushed line = none) :
    takeLine line r =
      ({ r with discarding := none, textLen := 0, parts := [] }, .emit (.error message)) := by
  unfold takeLine
  rw [hdisc]
  unfold pushed announced at hpush
  unfold endDiscarded
  dsimp only at hpush ⊢
  generalize matchLiteralTail (latin1Decode (stripCR line)) = tail at hpush ⊢
  cases tail with
  | none => rfl
  | some lit =>
    dsimp only at hpush ⊢
    split_ifs at hpush ⊢
    rfl

section

variable (hlit : r.literalRemaining = none)

include hlit

/-- A line that is not too long fits with its `CR`. -/
theorem Tidy.fitting {x line rest : Bytes} (h : r.Tidy x) (hdisc : r.discarding = none)
    (hcut : cutLine (r.buffer ++ x) = some (line, rest))
    (hfits : r.textLen + (stripCR line).length ≤ r.maxLineBytes) :
    (match announced line with
      | none => tidy r.maxLineBytes r.literalCap 0 false rest
      | some lit =>
        if lit.size ≤ r.literalCap lit then
          tidy r.maxLineBytes r.literalCap (r.textLen + lit.before.length) false
            (rest.drop lit.size)
        else if lit.nonSync then
          tidy r.maxLineBytes r.literalCap (r.textLen + lit.before.length) true
            (rest.drop lit.size)
        else tidy r.maxLineBytes r.literalCap 0 false rest) = true := by
  unfold Tidy at h
  rw [hlit, hdisc] at h
  have hraw : r.textLen + line.length ≤ r.maxLineBytes := by
    by_contra hlong
    have hstrict := ((tidy_long hcut (by omega)).mp h).1
    omega
  exact (tidy_fits hcut hraw).symm.trans h

theorem Tidy.long {x line rest : Bytes} (h : r.Tidy x) (hdisc : r.discarding = none)
    (hcut : cutLine (r.buffer ++ x) = some (line, rest))
    (hlong : r.maxLineBytes < r.textLen + line.length) :
    r.maxLineBytes < r.textLen + (stripCR line).length ∧ pushed line = none ∧
      tidy r.maxLineBytes r.literalCap 0 false rest = true := by
  unfold Tidy at h
  rw [hlit, hdisc] at h
  exact (tidy_long hcut hlong).mp h

theorem Tidy.dropped {x line rest : Bytes} (h : r.Tidy x) (hdisc : r.discarding = some message)
    (hcut : cutLine (r.buffer ++ x) = some (line, rest)) :
    pushed line = none ∧ tidy r.maxLineBytes r.literalCap 0 false rest = true := by
  unfold Tidy at h
  rw [hlit, hdisc] at h
  exact (tidy_discarding hcut).mp h

theorem Tidy.takeLine {x line rest : Bytes} (h : r.Tidy x)
    (hcut : cutLine (r.buffer ++ x) = some (line, rest ++ x)) :
    (Reader.takeLine line { r with buffer := rest }).1.Tidy x := by
  have hstep := takeLine_step line { r with buffer := rest }
  generalize (Reader.takeLine line { r with buffer := rest }).1 = s,
    (Reader.takeLine line { r with buffer := rest }).2 = o at hstep
  cases hstep with
  | skipped hdisc hpush =>
    have hnone := (h.dropped hlit hdisc hcut).1
    rw [hpush] at hnone
    cases hnone
  | dropped hdisc hpush =>
    unfold Tidy
    rw [hlit]
    exact (h.dropped hlit hdisc hcut).2
  | tooLong hdisc hlong =>
    have hraw := stripCR_length line
    unfold Tidy
    dsimp only at hdisc hlong ⊢
    rw [hlit, hdisc]
    exact (h.long hlit hdisc hcut (by omega)).2.2
  | literal hdisc hfits hann hsize =>
    have hrest := h.fitting hlit hdisc hcut hfits
    rw [hann] at hrest
    dsimp only at hrest
    rw [if_pos (by exact hsize)] at hrest
    unfold Tidy
    dsimp only [opened] at hdisc ⊢
    rw [hdisc]
    exact hrest
  | tooLarge hdisc hfits hann hsize hsync =>
    have hrest := h.fitting hlit hdisc hcut hfits
    rw [hann] at hrest
    dsimp only at hrest
    rw [if_neg (by exact Nat.not_le_of_lt hsize), if_pos hsync] at hrest
    exact hrest
  | refused hdisc hfits hann hsize hsync =>
    have hrest := h.fitting hlit hdisc hcut hfits
    rw [hann] at hrest
    dsimp only at hrest
    rw [if_neg (by exact Nat.not_le_of_lt hsize), if_neg (by simp [hsync])] at hrest
    unfold Tidy
    dsimp only at hdisc ⊢
    rw [hlit, hdisc]
    exact hrest
  | line hdisc hfits hann =>
    have hrest := h.fitting hlit hdisc hcut hfits
    rw [hann] at hrest
    unfold Tidy
    dsimp only at hdisc ⊢
    rw [hlit, hdisc]
    exact hrest

end

theorem Tidy.go (h : r.Tidy x)
    (hpass : pass r = .go s ev) : s.Tidy x := by
  obtain ⟨size, hlit, hsize, rfl, -⟩ | ⟨line, rest, hlit, hline, hbuf, -, rfl, -⟩ :=
    pass_go_cases hpass
  · unfold Tidy at h ⊢
    rw [hlit] at h
    simp only [takeLiteral, Option.getD_some, Option.getD_none, List.drop_zero] at h ⊢
    rw [List.drop_append_of_le_length hsize] at h
    exact h
  · refine h.takeLine hlit ?_
    rw [hbuf, List.append_assoc, List.cons_append, cutLine_line hline]

theorem loop_dropped (hlit : r.literalRemaining = none) (hdisc : r.discarding = some message)
    (hcut : cutLine r.buffer = some (line, rest)) (hpush : pushed line = none) :
    (loop r).2 = .error message ::
      (loop { r with buffer := rest, discarding := none, textLen := 0, parts := [] }).2 := by
  have hgo := pass_line hlit hcut
  rw [takeLine_dropped (by exact hdisc) hpush] at hgo
  rw [loop_go hgo]
  rfl

theorem loop_tooLong (hlit : r.literalRemaining = none)
    (hdisc : r.discarding = none) (hcut : cutLine r.buffer = some (line, rest))
    (hlong : r.maxLineBytes < r.textLen + (stripCR line).length) :
    (loop r).2 = .error "line too long".toList ::
      (loop { r with buffer := rest, textLen := 0, parts := [] }).2 := by
  have hgo := pass_line hlit hcut
  rw [takeLine_tooLong (by exact hdisc) (by exact hlong)] at hgo
  rw [loop_go hgo]
  rfl

theorem tidy_dropped {x line rest : Bytes}
    (hlit : r.literalRemaining = none) (hdisc : r.discarding = some message)
    (hcut : cutLine (r.buffer ++ x) = some (line, rest)) (hpush : pushed line = none)
    (hrest : tidy r.maxLineBytes r.literalCap 0 false rest = true) : r.Tidy x := by
  unfold Tidy
  rw [hlit, hdisc]
  exact (tidy_discarding hcut).mpr ⟨hpush, hrest⟩

theorem awaitLine_discarding (h : r.discarding ≠ none) :
    awaitLine r = { r with buffer := [] } := by
  rw [awaitLine, if_neg (fun hcond => h hcond.1), if_neg h]

theorem awaitLine_long (h : r.discarding = none)
    (hlong : r.maxLineBytes < r.textLen + r.buffer.length) :
    awaitLine r = { r with
      discarding := some "line too long".toList, buffer := [], textLen := 0, parts := [] } := by
  rw [awaitLine, if_pos ⟨h, hlong⟩]

theorem awaitLine_short (h : r.discarding = none)
    (hlong : ¬r.maxLineBytes < r.textLen + r.buffer.length) : awaitLine r = r := by
  rw [awaitLine, if_neg (fun hcond => hlong hcond.2), if_pos h]

/-- A line that is thrown away for being too long, or for what stands before it, ends as
the whole of it would. -/
theorem awaitLine_plus (h : r.Tidy x) (hlit : r.literalRemaining = none)
    (hopen : LF ∉ r.buffer) :
    (loop ((awaitLine r).plus x)).2 = (loop (r.plus x)).2 ∧ (awaitLine r).Tidy x := by
  obtain ⟨hx, hcut⟩ | ⟨line, rest, hline, hbuf, hcut⟩ := cutLine_cases x
  · have hopen' : LF ∉ (awaitLine r).buffer := by
      unfold awaitLine
      split_ifs
      · simp
      · exact hopen
      · simp
    have hlit' : (awaitLine r).literalRemaining = none := by
      unfold awaitLine
      split_ifs <;> exact hlit
    have hstop := pass_open (r := r.plus x) hlit (by simp [plus, hopen, hx])
    have hstop' := pass_open (r := (awaitLine r).plus x) hlit' (by simp [plus, hopen', hx])
    rw [loop_stop hstop, loop_stop hstop']
    refine ⟨rfl, ?_⟩
    unfold Tidy
    rw [hlit']
    exact tidy_open (cutLine_none (by simp [hopen', hx]))
  · have hwhole : cutLine (r.buffer ++ x) = some (r.buffer ++ line, rest) := by
      have hmem : LF ∉ r.buffer ++ line := by simp [hopen, hline]
      rw [hbuf, ← List.append_assoc, cutLine_line hmem]
    unfold awaitLine
    split_ifs with hlong hdisc
    · obtain ⟨hdisc, hlong⟩ := hlong
      have hraw : r.maxLineBytes < r.textLen + (r.buffer ++ line).length := by
        rw [List.length_append]
        omega
      obtain ⟨hstrict, hpush, hrest⟩ := h.long hlit hdisc hwhole hraw
      refine ⟨?_, tidy_dropped hlit rfl hcut (pushed_append hpush) hrest⟩
      rw [loop_dropped (by exact hlit) rfl (by exact hcut) (pushed_append hpush),
        loop_tooLong (r := r.plus x) hlit hdisc hwhole hstrict]
      simp [plus, hdisc]
    · exact ⟨rfl, h⟩
    · obtain ⟨message, hsome⟩ := Option.ne_none_iff_exists'.mp hdisc
      obtain ⟨hpush, hrest⟩ := h.dropped hlit hsome hwhole
      refine ⟨?_, tidy_dropped hlit hsome hcut (pushed_append hpush) hrest⟩
      rw [loop_dropped (by exact hlit) (by exact hsome) (by exact hcut) (pushed_append hpush),
        loop_dropped (r := r.plus x) hlit hsome hwhole hpush]
      rfl

theorem openLiteral_plus (h : r.Tidy x)
    (hlit : r.literalRemaining = some size) (hsize : r.buffer.length < size) :
    (loop ((openLiteral size r).plus x)).2 = (loop (r.plus x)).2 ∧
      (openLiteral size r).Tidy x := by
  have hlen : (r.plus x).buffer.length = r.buffer.length + x.length := by simp [plus]
  constructor
  · by_cases hall : size ≤ r.buffer.length + x.length
    · have hgo := pass_literal (r := r.plus x) hlit (by omega)
      have hgo' := pass_literal (r := (openLiteral size r).plus x) rfl
        (by simp only [plus, openLiteral, List.nil_append]; omega)
      rw [loop_go hgo, loop_go hgo']
      have hsame : takeLiteral (size - r.buffer.length) ((openLiteral size r).plus x) =
          takeLiteral size (r.plus x) := by
        have htake : (r.buffer ++ x).take size = r.buffer ++ x.take (size - r.buffer.length) := by
          rw [List.take_append, List.take_of_length_le hsize.le]
        have hdrop : (r.buffer ++ x).drop size = x.drop (size - r.buffer.length) := by
          rw [List.drop_append, List.drop_eq_nil_of_le hsize.le, List.nil_append]
        unfold takeLiteral plus openLiteral
        dsimp only
        rw [List.nil_append, htake, hdrop]
        congr 1
        cases hdisc : r.discarding with
        | none => cases hbuf : r.buffer <;> simp
        | some message => simp
      rw [hsame]
    · have hstop := pass_unfinished (r := r.plus x) hlit (by omega)
      have hstop' := pass_unfinished (r := (openLiteral size r).plus x) rfl
        (by simp only [plus, openLiteral, List.nil_append]; omega)
      rw [loop_stop hstop, loop_stop hstop']
  · unfold Tidy at h ⊢
    rw [hlit] at h
    simp only [Option.getD_some, List.drop_append, List.drop_eq_nil_of_le hsize.le,
      List.nil_append] at h
    exact h

theorem stop_plus (h : r.Tidy x) (hpass : pass r = .stop s) :
    (loop (s.plus x)).2 = (loop (r.plus x)).2 ∧ s.Tidy x := by
  obtain ⟨size, hlit, hsize, rfl⟩ | ⟨hlit, hopen, rfl⟩ := pass_stop_cases hpass
  · exact openLiteral_plus h hlit hsize
  · exact awaitLine_plus h hlit hopen

theorem loop_plus (h : r.Tidy x) :
    (loop (r.plus x)).2 = (loop r).2 ++ (loop ((loop r).1.plus x)).2 ∧ (loop r).1.Tidy x := by
  induction r using loop.induct with
  | case1 r s hpass =>
    obtain ⟨hevents, htidy⟩ := stop_plus h hpass
    rw [loop_stop hpass, hevents]
    exact ⟨rfl, htidy⟩
  | case2 r s ev hpass ih =>
    obtain ⟨hevents, htidy⟩ := ih (h.go hpass)
    rw [loop_go hpass, loop_go (pass_plus hpass x), hevents]
    exact ⟨(List.append_assoc _ _ _).symm, htidy⟩

def events (r : Reader) : List Bytes → List ReaderEvent
  | [] => []
  | chunk :: chunks => (feed chunk r).2 ++ events (feed chunk r).1 chunks

/-- A complete line, with the pieces of it that were thrown away before its end came, and
what became of it. -/
structure Taken where
  line : Bytes
  after : Reader
  outcome : LineOutcome

/-- The lines one round takes, and what is thrown away of the line after them. -/
def noted (gone : Bytes) (r : Reader) : List Taken × Bytes :=
  match r.literalRemaining with
  | some _ => ([], gone)
  | none =>
    match cutLine r.buffer with
    | none => ([], if (awaitLine r).buffer = [] then gone ++ r.buffer else gone)
    | some (line, rest) =>
      let t := takeLine line { r with buffer := rest }
      ([⟨gone ++ line, t.1, t.2⟩], [])

def taken (gone : Bytes) (r : Reader) : List Taken × Bytes :=
  match _h : pass r with
  | .stop _ => noted gone r
  | .go s _ =>
    let t := taken (noted gone r).2 s
    ((noted gone r).1 ++ t.1, t.2)
termination_by work r
decreasing_by exact pass_work _h

def takenLines (gone : Bytes) (r : Reader) : List Bytes → List Taken
  | [] => []
  | chunk :: chunks =>
    let t := taken gone (r.plus chunk)
    t.1 ++ takenLines t.2 (feed chunk r).1 chunks

def Taken.Skips (t : Taken) : Prop :=
  (t.after.discarding ≠ none ∨ ∃ message, t.outcome = .emit (.error message)) →
    ∀ size, pushed t.line = some size →
      t.after.literalRemaining = some size ∧ t.after.discarding ≠ none

/-- However the stream is cut, its events are the same, and the bytes that a refused line
has pushed are skipped. -/
structure Framed (r : Reader) (s : Bytes) : Prop where
  events : ∀ chunks chunks', chunks.flatten = s → chunks'.flatten = s →
    r.events chunks = r.events chunks'
  skips : ∀ chunks, chunks.flatten = s → ∀ t ∈ takenLines [] r chunks, t.Skips

theorem loop_empty (hbuf : r.buffer = []) : (loop r).2 = [] := by
  have hline : ∀ q : Reader, q.buffer = [] → q.literalRemaining = none → (loop q).2 = [] := by
    intro q hempty hlit
    rw [loop_stop (pass_open hlit (by simp [hempty]))]
  cases hlit : r.literalRemaining with
  | none => exact hline r hbuf hlit
  | some size =>
    by_cases hsize : size ≤ r.buffer.length
    · rw [loop_go (pass_literal hlit hsize), hline _ (by simp [takeLiteral, hbuf]) rfl]
      rfl
    · rw [loop_stop (pass_unfinished hlit (by omega))]

theorem events_cons {chunk : Bytes}
    (h : r.Tidy (chunk :: chunks).flatten) :
    r.events (chunk :: chunks) = (feed (chunk :: chunks).flatten r).2 := by
  induction chunks generalizing r chunk with
  | nil => simp [events]
  | cons next chunks ih =>
    rw [List.flatten_cons] at h ⊢
    have htidy : (r.plus chunk).Tidy (next :: chunks).flatten := by
      unfold Tidy at h ⊢
      rwa [← List.append_assoc] at h
    obtain ⟨hevents, hafter⟩ := loop_plus htidy
    rw [events, feed_eq chunk, ih hafter, feed_eq, feed_eq, ← plus_plus, hevents]

theorem events_eq (hbuf : r.buffer = [])
    (h : r.Tidy chunks.flatten) : r.events chunks = (feed chunks.flatten r).2 := by
  cases chunks with
  | nil => exact (loop_empty (by simp [hbuf])).symm
  | cons chunk chunks => exact events_cons h

/-- What is thrown away of a line belongs to a logical line that is being thrown away, and
the whole line announces nothing. -/
def Gone (gone : Bytes) (r : Reader) (x : Bytes) : Prop :=
  gone ≠ [] → r.literalRemaining = none ∧ r.discarding ≠ none ∧
    ∀ line rest, cutLine (r.buffer ++ x) = some (line, rest) → pushed (gone ++ line) = none

theorem gone_nil (r : Reader) (x : Bytes) : Gone [] r x := fun h => absurd rfl h

theorem takeLine_skips {x line rest gone : Bytes} (h : r.Tidy x)
    (hgone : Gone gone r x) (hlit : r.literalRemaining = none)
    (hcut : cutLine (r.buffer ++ x) = some (line, rest ++ x)) :
    Taken.Skips ⟨gone ++ line, (takeLine line { r with buffer := rest }).1,
      (takeLine line { r with buffer := rest }).2⟩ := by
  intro hrefused size hpush
  by_cases hempty : gone = []
  · have hstep := takeLine_step line { r with buffer := rest }
    rw [hempty, List.nil_append] at hpush
    dsimp only at hrefused hpush ⊢
    generalize (takeLine line { r with buffer := rest }).1 = s,
      (takeLine line { r with buffer := rest }).2 = o at hstep hrefused ⊢
    have hsize : ∀ lit, announced line = some lit → lit.nonSync = true ∧ lit.size = size := by
      intro lit hann
      unfold pushed at hpush
      rw [hann] at hpush
      simpa using hpush
    cases hstep with
    | skipped hdisc hpush' =>
      rw [hpush] at hpush'
      cases hpush'
      dsimp only at hdisc
      exact ⟨rfl, by simp [hdisc]⟩
    | dropped hdisc hpush' =>
      rw [hpush] at hpush'
      cases hpush'
    | tooLong hdisc hlong =>
      have hraw := stripCR_length line
      dsimp only at hdisc hlong
      have hnone := (h.long hlit hdisc hcut (by omega)).2.1
      rw [hpush] at hnone
      cases hnone
    | literal hdisc hfits hann hfit =>
      obtain ⟨hsync, -⟩ := hsize _ hann
      simp [opened, hsync, hdisc] at hrefused
    | tooLarge hdisc hfits hann hlarge hsync =>
      obtain ⟨-, rfl⟩ := hsize _ hann
      exact ⟨rfl, by simp⟩
    | refused hdisc hfits hann hlarge hsync =>
      obtain ⟨hsync', -⟩ := hsize _ hann
      rw [hsync] at hsync'
      cases hsync'
    | line hdisc hfits hann =>
      unfold pushed at hpush
      rw [hann] at hpush
      cases hpush
  · have hnone := (hgone hempty).2.2 line _ hcut
    dsimp only at hpush
    rw [hpush] at hnone
    cases hnone

theorem gone_awaitLine {x gone : Bytes} (h : r.Tidy x) (hgone : Gone gone r x)
    (hlit : r.literalRemaining = none) (hopen : LF ∉ r.buffer) :
    Gone (if (awaitLine r).buffer = [] then gone ++ r.buffer else gone) (awaitLine r) x := by
  have hwhole : ∀ line rest, cutLine x = some (line, rest) →
      cutLine (r.buffer ++ x) = some (r.buffer ++ line, rest) := by
    intro line rest hcut
    obtain ⟨-, hnone⟩ | ⟨line', rest', hline, hx, hsome⟩ := cutLine_cases x
    · rw [hnone] at hcut
      cases hcut
    · rw [hsome] at hcut
      cases hcut
      have hmem : LF ∉ r.buffer ++ line := by simp [hopen, hline]
      rw [hx, ← List.append_assoc, cutLine_line hmem]
  have hnil : r.discarding = none → gone = [] := by
    intro hdisc
    by_contra hne
    exact (hgone hne).2.1 hdisc
  by_cases hdisc : r.discarding = none
  · by_cases hlong : r.maxLineBytes < r.textLen + r.buffer.length
    · rw [awaitLine_long hdisc hlong, if_pos rfl, hnil hdisc, List.nil_append]
      refine fun _ => ⟨hlit, by simp, fun line rest hcut => ?_⟩
      have hraw : r.maxLineBytes < r.textLen + (r.buffer ++ line).length := by
        rw [List.length_append]
        omega
      exact (h.long hlit hdisc (hwhole line rest hcut) hraw).2.1
    · rw [awaitLine_short hdisc hlong, hnil hdisc, List.nil_append]
      split_ifs with hempty
      · rw [hempty]
        exact gone_nil r x
      · exact gone_nil r x
  · rw [awaitLine_discarding hdisc, if_pos rfl]
    refine fun _ => ⟨hlit, hdisc, fun line rest hcut => ?_⟩
    have hcut' := hwhole line rest hcut
    rw [List.append_assoc]
    by_cases hempty : gone = []
    · obtain ⟨message, hsome⟩ := Option.ne_none_iff_exists'.mp hdisc
      rw [hempty, List.nil_append]
      exact (h.dropped hlit hsome hcut').1
    · exact (hgone hempty).2.2 _ rest hcut'

theorem noted_literal (hlit : r.literalRemaining = some size)
    (gone : Bytes) : noted gone r = ([], gone) := by
  unfold noted
  rw [hlit]

theorem noted_open (hlit : r.literalRemaining = none) (hopen : LF ∉ r.buffer)
    (gone : Bytes) :
    noted gone r = ([], if (awaitLine r).buffer = [] then gone ++ r.buffer else gone) := by
  unfold noted
  rw [hlit, cutLine_none hopen]

theorem noted_line (hlit : r.literalRemaining = none)
    (hcut : cutLine r.buffer = some (line, rest)) (gone : Bytes) :
    noted gone r = ([⟨gone ++ line, (takeLine line { r with buffer := rest }).1,
      (takeLine line { r with buffer := rest }).2⟩], []) := by
  unfold noted
  split
  · rename_i heq
    rw [hlit] at heq
    cases heq
  · rw [hcut]

theorem noted_skips {x gone : Bytes} (h : r.Tidy x) (hgone : Gone gone r x) :
    (∀ t ∈ (noted gone r).1, t.Skips) ∧
      (∀ s, pass r = .stop s → Gone (noted gone r).2 s x) ∧
      ∀ s ev, pass r = .go s ev → (noted gone r).2 = [] := by
  cases hlit : r.literalRemaining with
  | some size =>
    have hnil : gone = [] := by
      by_contra hne
      have hnone := (hgone hne).1
      rw [hlit] at hnone
      cases hnone
    rw [noted_literal hlit, hnil]
    exact ⟨by simp, fun s _ => gone_nil s x, fun _ _ _ => rfl⟩
  | none =>
    obtain ⟨hopen, -⟩ | ⟨line, rest, hline, hbuf, hcut⟩ := cutLine_cases r.buffer
    · rw [noted_open hlit hopen, pass_open hlit hopen]
      refine ⟨by simp, fun s hstop => ?_, fun s ev hgo => by cases hgo⟩
      cases hstop
      exact gone_awaitLine h hgone hlit hopen
    · have hcut' : cutLine (r.buffer ++ x) = some (line, rest ++ x) := by
        rw [hbuf, List.append_assoc, List.cons_append, cutLine_line hline]
      rw [noted_line hlit hcut]
      refine ⟨fun t ht => ?_, fun s _ => gone_nil s x, fun _ _ _ => rfl⟩
      rw [List.mem_singleton.mp ht]
      exact takeLine_skips h hgone hlit hcut'

theorem taken_stop (h : pass r = .stop s) (gone : Bytes) :
    taken gone r = noted gone r := by
  rw [taken.eq_def]
  split
  · rfl
  · rename_i heq
    rw [h] at heq
    cases heq

theorem taken_go (h : pass r = .go s ev) (gone : Bytes) :
    taken gone r = ((noted gone r).1 ++ (taken (noted gone r).2 s).1,
      (taken (noted gone r).2 s).2) := by
  rw [taken.eq_def]
  split
  · rename_i heq
    rw [h] at heq
    cases heq
  · rename_i heq
    rw [h] at heq
    cases heq
    rfl

theorem taken_skips {x gone : Bytes} (h : r.Tidy x) (hgone : Gone gone r x) :
    (∀ t ∈ (taken gone r).1, t.Skips) ∧ Gone (taken gone r).2 (loop r).1 x := by
  induction r using loop.induct generalizing gone with
  | case1 r s hpass =>
    obtain ⟨hskips, hstop, -⟩ := noted_skips h hgone
    rw [taken_stop hpass, loop_stop hpass]
    exact ⟨hskips, hstop s hpass⟩
  | case2 r s ev hpass ih =>
    obtain ⟨hskips, -, hgo⟩ := noted_skips h hgone
    rw [taken_go hpass, loop_go hpass, hgo s ev hpass]
    obtain ⟨hrest, hafter⟩ := ih (h.go hpass) (gone_nil s x)
    refine ⟨fun t ht => ?_, hafter⟩
    obtain hhere | hlater := List.mem_append.mp ht
    · exact hskips t hhere
    · exact hrest t hlater

theorem takenLines_skips {gone : Bytes}
    (h : r.Tidy chunks.flatten) (hgone : Gone gone r chunks.flatten) :
    ∀ t ∈ takenLines gone r chunks, t.Skips := by
  induction chunks generalizing r gone with
  | nil => simp [takenLines]
  | cons chunk chunks ih =>
    rw [List.flatten_cons] at h hgone
    have htidy : (r.plus chunk).Tidy chunks.flatten := by
      unfold Tidy at h ⊢
      rwa [← List.append_assoc] at h
    have hgone' : Gone gone (r.plus chunk) chunks.flatten := by
      unfold Gone at hgone ⊢
      rwa [← List.append_assoc] at hgone
    obtain ⟨hskips, hafter⟩ := taken_skips htidy hgone'
    have hrest := ih (loop_plus htidy).2 hafter
    intro t ht
    obtain hhere | hlater := List.mem_append.mp ht
    · exact hskips t hhere
    · exact hrest t hlater

theorem framed_of_tidy {s : Bytes} (hbuf : r.buffer = []) (h : r.Tidy s) :
    Framed r s := by
  constructor
  · intro chunks chunks' hs hs'
    rw [events_eq hbuf (by rwa [hs]), events_eq hbuf (by rwa [hs']), hs, hs']
  · intro chunks hs
    exact takenLines_skips (by rwa [hs]) (gone_nil r _)

theorem noted_plus (hpass : pass r = .go s ev)
    (x gone : Bytes) : (noted gone (r.plus x)).2 = (noted gone r).2 := by
  obtain ⟨size, hlit, -, -, -⟩ | ⟨line, rest, hlit, hline, hbuf, hcut, -, -⟩ := pass_go_cases hpass
  · rw [noted_literal hlit, noted_literal (r := r.plus x) hlit]
  · have hcut' : cutLine (r.plus x).buffer = some (line, rest ++ x) := by
      rw [plus, hbuf, List.append_assoc, List.cons_append, cutLine_line hline]
    rw [noted_line hlit hcut, noted_line (r := r.plus x) hlit hcut']

theorem Framed.step {p x : Bytes}
    (h : Framed r (p ++ x)) (hpass : pass (r.plus p) = .go s ev)
    (hnoted : (noted [] (r.plus p)).2 = []) (hx : x ≠ []) : Framed s x := by
  have hfeed : ∀ chunk, feed (p ++ chunk) r =
      ((feed chunk s).1, ev.toList ++ (feed chunk s).2) := by
    intro chunk
    rw [feed_eq, ← plus_plus, loop_go (pass_plus hpass chunk)]
    rfl
  have hevents : ∀ chunk chunks, r.events ((p ++ chunk) :: chunks) =
      ev.toList ++ s.events (chunk :: chunks) := by
    intro chunk chunks
    rw [Reader.events, hfeed, Reader.events, List.append_assoc]
  have htaken : ∀ chunk chunks, ∀ t ∈ takenLines [] s (chunk :: chunks),
      t ∈ takenLines [] r ((p ++ chunk) :: chunks) := by
    intro chunk chunks t ht
    rw [takenLines] at ht ⊢
    rw [hfeed, ← plus_plus, taken_go (pass_plus hpass chunk), noted_plus hpass, hnoted]
    rw [List.append_assoc]
    exact List.mem_append_right _ ht
  have hcons : ∀ chunks : List Bytes, chunks.flatten = x →
      ∃ chunk later, chunks = chunk :: later ∧ ((p ++ chunk) :: later).flatten = p ++ x := by
    intro chunks hchunks
    cases chunks with
    | nil => exact absurd hchunks.symm hx
    | cons chunk later =>
      refine ⟨chunk, later, rfl, ?_⟩
      rw [← hchunks, List.flatten_cons, List.flatten_cons, List.append_assoc]
  constructor
  · intro chunks chunks' hchunks hchunks'
    obtain ⟨chunk, later, rfl, hflat⟩ := hcons chunks hchunks
    obtain ⟨chunk', later', rfl, hflat'⟩ := hcons chunks' hchunks'
    have hsame := h.events _ _ hflat hflat'
    rw [hevents, hevents] at hsame
    exact List.append_cancel_left hsame
  · intro chunks hchunks t ht
    obtain ⟨chunk, later, rfl, hflat⟩ := hcons chunks hchunks
    exact h.skips _ hflat t (htaken chunk later t ht)

/-- A line cut right before its `LF`, when the reader throws its bytes away. -/
theorem split_line (rest : Bytes) (hbuf : r.buffer = [])
    (hlit : r.literalRemaining = none) (hline : LF ∉ line)
    (hthrown : r.discarding ≠ none ∨ r.maxLineBytes < r.textLen + line.length) :
    ∃ later after,
      r.events [line, LF :: rest] =
        .error (r.discarding.getD "line too long".toList) :: later ∧
      after.literalRemaining = none ∧
      ⟨line, after, .emit (.error (r.discarding.getD "line too long".toList))⟩ ∈
        takenLines [] r [line, LF :: rest] := by
  have hopen : LF ∉ (r.plus line).buffer := by simp [plus, hbuf, hline]
  obtain ⟨q, hq, hqbuf, hqlit, hqdisc⟩ : ∃ q, awaitLine (r.plus line) = q ∧ q.buffer = [] ∧
      q.literalRemaining = none ∧
      q.discarding = some (r.discarding.getD "line too long".toList) := by
    refine ⟨_, rfl, ?_⟩
    cases hdisc : r.discarding with
    | none =>
      have hlong : r.maxLineBytes < r.textLen + line.length :=
        hthrown.resolve_left (by simp [hdisc])
      rw [awaitLine_long (r := r.plus line) hdisc (by simpa [plus, hbuf] using hlong)]
      exact ⟨rfl, hlit, rfl⟩
    | some message =>
      rw [awaitLine_discarding (r := r.plus line) (by simp [plus, hdisc])]
      exact ⟨rfl, hlit, hdisc⟩
  have hstop := pass_open (r := r.plus line) hlit hopen
  rw [hq] at hstop
  have hcut : cutLine (q.plus (LF :: rest)).buffer = some ([], rest) := by
    simp [plus, hqbuf, cutLine]
  obtain ⟨after, htake, hafter⟩ : ∃ after,
      takeLine [] { q.plus (LF :: rest) with buffer := rest } =
        (after, .emit (.error (r.discarding.getD "line too long".toList))) ∧
      after.literalRemaining = none :=
    ⟨_, takeLine_dropped hqdisc rfl, hqlit⟩
  have hgo := pass_line (r := q.plus (LF :: rest)) hqlit hcut
  have hnoted := noted_line (r := q.plus (LF :: rest)) hqlit hcut line
  rw [htake] at hgo hnoted
  refine ⟨(loop after).2, after, ?_, hafter, ?_⟩
  · rw [events, events, events, feed_eq, loop_stop hstop, feed_eq, loop_go hgo, List.append_nil]
    rfl
  · have hgone : taken [] (r.plus line) = ([], line) := by
      rw [taken_stop hstop, noted_open (r := r.plus line) hlit hopen, hq, if_pos hqbuf]
      simp [plus, hbuf]
    rw [takenLines, hgone, takenLines, feed_eq, loop_stop hstop, taken_go hgo, hnoted]
    simp

theorem Framed.pushed (h : Framed r (line ++ LF :: rest))
    (hbuf : r.buffer = []) (hlit : r.literalRemaining = none) (hline : LF ∉ line)
    (hthrown : r.discarding ≠ none ∨ r.maxLineBytes < r.textLen + line.length) :
    Imap.pushed line = none := by
  obtain ⟨later, after, -, hafter, hmem⟩ := split_line rest hbuf hlit hline hthrown
  have hskips := h.skips [line, LF :: rest] (by simp) _ hmem (.inr ⟨_, rfl⟩)
  cases hpush : Imap.pushed line with
  | none => rfl
  | some size =>
    have hsome := (hskips size hpush).1
    rw [hafter] at hsome
    cases hsome

theorem not_nonSync (hann : announced line = some lit)
    (hpush : Imap.pushed line = none) : lit.nonSync = false := by
  unfold Imap.pushed at hpush
  rw [hann] at hpush
  simpa using hpush

theorem Framed.fits (h : Framed r (line ++ LF :: rest))
    (hbuf : r.buffer = []) (hlit : r.literalRemaining = none) (hline : LF ∉ line)
    (hdisc : r.discarding = none)
    (hfits : r.textLen + (stripCR line).length ≤ r.maxLineBytes) :
    r.textLen + line.length ≤ r.maxLineBytes := by
  by_contra hlong
  have hthrown : r.discarding ≠ none ∨ r.maxLineBytes < r.textLen + line.length :=
    .inr (Nat.lt_of_not_le hlong)
  have hpush := h.pushed hbuf hlit hline hthrown
  obtain ⟨later, after, hevents, -, -⟩ := split_line rest hbuf hlit hline hthrown
  have hcut : cutLine (r.plus (line ++ LF :: rest)).buffer = some (line, rest) := by
    rw [plus, hbuf, List.nil_append, cutLine_line hline]
  have hgo := pass_line (r := r.plus (line ++ LF :: rest)) hlit hcut
  have hwhole : r.events [line ++ LF :: rest] = r.events [line, LF :: rest] :=
    h.events [line ++ LF :: rest] [line, LF :: rest] (by simp) (by simp)
  rw [hevents, Reader.events, feed_eq, loop_go hgo, hdisc] at hwhole
  have hstep := takeLine_step line { r.plus (line ++ LF :: rest) with buffer := rest }
  generalize (takeLine line { r.plus (line ++ LF :: rest) with buffer := rest }).1 = s,
    (takeLine line { r.plus (line ++ LF :: rest) with buffer := rest }).2 = o at hstep hwhole
  cases hstep with
  | skipped hsome | dropped hsome =>
    have hnone : some _ = none := hsome.symm.trans hdisc
    cases hnone
  | tooLong _ hstrict => exact absurd hstrict (Nat.not_lt_of_le hfits)
  | literal _ _ hann =>
    have hsync := not_nonSync hann hpush
    simp [hsync, LineOutcome.event] at hwhole
  | tooLarge _ _ hann _ hsync =>
    rw [not_nonSync hann hpush] at hsync
    cases hsync
  | refused =>
    have hhead : ReaderEvent.error "literal too large".toList = .error "line too long".toList :=
      (List.cons.inj hwhole).1
    revert hhead
    decide
  | line =>
    cases (List.cons.inj hwhole).1

theorem takeLine_buffer (line : Bytes) (r : Reader) : (takeLine line r).1.buffer = r.buffer := by
  have hstep := takeLine_step line r
  generalize (takeLine line r).1 = s, (takeLine line r).2 = o at hstep
  cases hstep <;> rfl

theorem tidy_nil (hbuf : r.buffer = []) : r.Tidy [] := by
  unfold Tidy
  rw [hbuf, List.append_nil, List.drop_nil]
  exact tidy_open rfl

theorem Framed.tidy_line (h : Framed r (line ++ LF :: rest))
    (hbuf : r.buffer = []) (hlit : r.literalRemaining = none) (hline : LF ∉ line)
    (hafter : (takeLine line r).1.Tidy rest) : r.Tidy (line ++ LF :: rest) := by
  have hcut : cutLine (line ++ LF :: rest) = some (line, rest) := cutLine_line hline rest
  have hstep := takeLine_step line r
  have hkeep := takeLine_buffer line r
  rw [hbuf] at hkeep
  unfold Tidy at hafter ⊢
  rw [hkeep, List.nil_append] at hafter
  rw [hbuf, hlit, List.nil_append, Option.getD_none, List.drop_zero]
  generalize (takeLine line r).1 = s, (takeLine line r).2 = o at hstep hafter
  cases hstep with
  | skipped hdisc hpush =>
    have hnone := h.pushed hbuf hlit hline (.inl (by simp [hdisc]))
    rw [hpush] at hnone
    cases hnone
  | dropped hdisc hpush =>
    rw [hlit] at hafter
    rw [hdisc]
    exact (tidy_discarding hcut).mpr ⟨hpush, hafter⟩
  | tooLong hdisc hlong =>
    have hraw := stripCR_length line
    have hthrown : r.maxLineBytes < r.textLen + line.length := by omega
    rw [hlit, hdisc] at hafter
    rw [hdisc]
    exact (tidy_long hcut hthrown).mpr
      ⟨hlong, h.pushed hbuf hlit hline (.inr hthrown), hafter⟩
  | literal hdisc hfits hann hsize =>
    rw [hdisc, Option.isSome_none, tidy_fits hcut (h.fits hbuf hlit hline hdisc hfits), hann]
    dsimp only [opened] at hafter ⊢
    rw [hdisc] at hafter
    rw [if_pos hsize]
    exact hafter
  | tooLarge hdisc hfits hann hsize hsync =>
    rw [hdisc, Option.isSome_none, tidy_fits hcut (h.fits hbuf hlit hline hdisc hfits), hann]
    dsimp only [opened] at hafter ⊢
    rw [if_neg (Nat.not_le_of_lt hsize), if_pos hsync]
    exact hafter
  | refused hdisc hfits hann hsize hsync =>
    rw [hdisc, Option.isSome_none, tidy_fits hcut (h.fits hbuf hlit hline hdisc hfits), hann]
    dsimp only at hafter ⊢
    rw [hlit, hdisc] at hafter
    rw [if_neg (Nat.not_le_of_lt hsize), if_neg (by simp [hsync])]
    exact hafter
  | line hdisc hfits hann =>
    rw [hdisc, Option.isSome_none, tidy_fits hcut (h.fits hbuf hlit hline hdisc hfits), hann]
    dsimp only at hafter ⊢
    rw [hlit, hdisc] at hafter
    exact hafter

theorem tidy_of_framed {s : Bytes} (hbuf : r.buffer = []) (h : Framed r s) :
    r.Tidy s := by
  -- the rounds the reader makes when the stream comes at once
  induction hw : work (r.plus s) using Nat.strong_induction_on generalizing r s with
  | _ n ih =>
    have hnext : ∀ {p x : Bytes} {q : Reader} {ev : Option ReaderEvent}, s = p ++ x →
        pass (r.plus p) = .go q ev → q.buffer = [] → (noted [] (r.plus p)).2 = [] →
        q.Tidy x := by
      intro p x q ev hs hpass hqbuf hnoted
      by_cases hx : x = []
      · rw [hx]
        exact tidy_nil hqbuf
      · have hwork := pass_work (pass_plus hpass x)
        rw [plus_plus, ← hs, hw] at hwork
        rw [hs] at h
        exact ih _ hwork hqbuf (h.step hpass hnoted hx) rfl
    cases hlit : r.literalRemaining with
    | some size =>
      by_cases hsize : size ≤ s.length
      · have hlen : size ≤ (r.plus (s.take size)).buffer.length := by
          simp [plus, hbuf, hsize]
        have hqbuf : (takeLiteral size (r.plus (s.take size))).buffer = [] := by
          simp [takeLiteral, plus, hbuf]
        have hrest := hnext (List.take_append_drop size s).symm
          (pass_literal (r := r.plus (s.take size)) hlit hlen) hqbuf
          (by rw [noted_literal (r := r.plus (s.take size)) hlit])
        unfold Tidy at hrest ⊢
        rw [hqbuf] at hrest
        rw [hbuf, hlit]
        exact hrest
      · unfold Tidy
        rw [hbuf, hlit, List.nil_append, Option.getD_some,
          List.drop_eq_nil_of_le (Nat.le_of_not_le hsize)]
        exact tidy_open rfl
    | none =>
      obtain ⟨hopen, hcut⟩ | ⟨line, rest, hline, rfl, hcut⟩ := cutLine_cases s
      · unfold Tidy
        rw [hbuf, hlit]
        exact tidy_open hcut
      · have hcut' : cutLine (r.plus (line ++ [LF])).buffer = some (line, []) := by
          rw [plus, hbuf, List.nil_append, cutLine_line hline]
        have hsame : { r.plus (line ++ [LF]) with buffer := [] } = r := by
          cases r
          cases hbuf
          rfl
        have hgo := pass_line (r := r.plus (line ++ [LF])) hlit hcut'
        have hnoted := noted_line (r := r.plus (line ++ [LF])) hlit hcut' []
        rw [hsame] at hgo
        have hkeep := takeLine_buffer line r
        rw [hbuf] at hkeep
        refine h.tidy_line hbuf hlit hline (hnext (p := line ++ [LF]) ?_ hgo hkeep ?_)
        · simp
        · rw [hnoted]

/-- A fresh reader with the given limits frames a stream, however it is cut, exactly when
the stream is tidy. -/
theorem reader_framing (maxLine maxLiteral maxNonSync : Nat) (s : Bytes) :
    Framed
        { maxLineBytes := maxLine, maxLiteralBytes := maxLiteral
          maxNonSyncLiteralBytes := maxNonSync } s ↔
      tidy maxLine (fun lit => if lit.nonSync then min maxLiteral maxNonSync else maxLiteral)
        0 false s = true :=
  ⟨tidy_of_framed rfl, fun h => framed_of_tidy rfl h⟩

theorem not_framed_overlong {fill : Bytes} (hfill : LF ∉ fill)
    (hlen : maxImapLineBytes ≤ fill.length) (rest : Bytes) :
    ¬Framed {} ((fill ++ utf8Encode "\x7b8+\x7d\r".toList) ++ LF :: rest) := by
  intro h
  have hline : LF ∉ fill ++ utf8Encode "\x7b8+\x7d\r".toList := by
    rw [List.mem_append, not_or]
    exact ⟨hfill, by decide⟩
  have hlong : maxImapLineBytes < 0 + (fill ++ utf8Encode "\x7b8+\x7d\r".toList).length := by
    have htail : 0 < (utf8Encode "\x7b8+\x7d\r".toList).length := by decide
    rw [List.length_append, Nat.zero_add]
    exact lt_of_le_of_lt hlen (Nat.lt_add_of_pos_right htail)
  have hpush : Imap.pushed (utf8Encode "\x7b8+\x7d\r".toList) = none :=
    pushed_append (h.pushed rfl rfl hline (.inr hlong))
  revert hpush
  decide

/-- A line over the default limit that pushes a whole command behind it. -/
theorem reader_framing_fails :
    ¬Framed {} ((List.replicate maxImapLineBytes 0x61 ++ utf8Encode "\x7b8+\x7d\r".toList) ++
      LF :: utf8Encode "A NOOP\r\n".toList) := by
  refine not_framed_overlong (fun hmem => ?_) (le_of_eq List.length_replicate.symm) _
  exact absurd (List.eq_of_mem_replicate hmem) (by decide)

end Reader

end Ionosphere.Imap
