import Ionosphere.Core.Limits
import Ionosphere.Js.Number

/-! The IMAP line reader: bytes in, logical lines out. A logical line is text
interleaved with literals; `{n}` at the end of a text line announces `n` raw
bytes. `pass` is one round of the loop in `feed`. -/
namespace Ionosphere.Imap

open Ionosphere.Js Ionosphere.Core

def CR : UInt8 := 0x0d
def LF : UInt8 := 0x0a

inductive LinePart where
  | text (text : Text)
  | literal (bytes : Bytes)
  deriving DecidableEq

inductive ReaderEvent where
  | continue (size : Nat)
  | line (parts : List LinePart)
  | error (message : Text)
  deriving DecidableEq

def defaultMaxNonSync : Nat := 4096

/-- The mutable fields of `ImapLineReader` and its three limits. -/
structure Reader where
  maxLineBytes : Nat := maxImapLineBytes
  maxLiteralBytes : Nat := maxMessageBytes
  maxNonSyncLiteralBytes : Nat := defaultMaxNonSync
  buffer : Bytes := []
  parts : List LinePart := []
  textLen : Nat := 0
  literalRemaining : Option Nat := none
  literalChunks : List Bytes := []
  discarding : Option Text := none
  deriving DecidableEq

def maxSafeInteger : Nat := 2 ^ 53 - 1

structure LiteralTail where
  before : Text
  size : Nat
  nonSync : Bool
  deriving DecidableEq

/-- `/\{(\d+)(\+?)\}$/` on a line read backwards, the closing brace and the plus
sign already taken. -/
def literalDigits (nonSync : Bool) (rev : Text) : Option LiteralTail :=
  let digits := (rev.takeWhile isDigit).reverse
  match rev.dropWhile isDigit with
  | '{' :: before =>
    if digits = [] ∨ maxSafeInteger < digitsValue 10 digits then none
    else some ⟨before.reverse, digitsValue 10 digits, nonSync⟩
  | _ => none

def matchLiteralTail (line : Text) : Option LiteralTail :=
  match line.reverse with
  | '}' :: '+' :: rest => literalDigits true rest
  | '}' :: rest => literalDigits false rest
  | _ => none

/-- The bytes before the first `LF` and the bytes after it. -/
def cutLine : Bytes → Option (Bytes × Bytes)
  | [] => none
  | b :: bs => if b = LF then some ([], bs) else (cutLine bs).map fun p => (b :: p.1, p.2)

/-- A line without the `CR` before its `LF`. -/
def stripCR (line : Bytes) : Bytes := if line.getLast? = some CR then line.dropLast else line

theorem length_of_cutLine {buf line rest : Bytes} (h : cutLine buf = some (line, rest)) :
    rest.length < buf.length := by
  induction buf generalizing line with
  | nil => simp [cutLine] at h
  | cons b bs ih =>
    simp only [cutLine] at h
    split at h
    · simp only [Option.some.injEq, Prod.mk.injEq] at h
      simp [← h.2]
    · simp only [Option.map_eq_some_iff, Prod.mk.injEq] at h
      obtain ⟨⟨line', rest'⟩, hp, -, rfl⟩ := h
      have hshort := ih hp
      exact Nat.lt_succ_of_lt hshort

namespace Reader

/-- Applies to the next literal; one that is being received keeps its size. -/
def setMaxLiteralBytes (bytes : Nat) (r : Reader) : Reader := { r with maxLiteralBytes := bytes }

def consumeLiteral (remaining : Nat) (r : Reader) : Reader × Bool :=
  let take := min remaining r.buffer.length
  let chunks :=
    if 0 < take ∧ r.discarding = none then r.literalChunks ++ [r.buffer.take take]
    else r.literalChunks
  let r := { r with buffer := r.buffer.drop take }
  if remaining - take = 0 then
    ({ r with
        parts := if r.discarding = none then r.parts ++ [LinePart.literal chunks.flatten] else r.parts
        literalChunks := []
        literalRemaining := none }, true)
  else ({ r with literalChunks := chunks, literalRemaining := some (remaining - take) }, false)

/-- What `consumeLine` returns: `null`, `undefined` or an event. -/
inductive LineOutcome where
  | wait
  | skip
  | emit (ev : ReaderEvent)
  deriving DecidableEq

/-- No `LF` in the buffer: a line that grows past the limit is dropped as it comes. -/
def awaitLine (r : Reader) : Reader :=
  if r.discarding = none ∧ r.maxLineBytes < r.textLen + r.buffer.length then
    { r with discarding := some "line too long".toList, buffer := [], textLen := 0, parts := [] }
  else if r.discarding = none then r
  else { r with buffer := [] }

/-- The end of a line that is being dropped: a non-synchronising literal it
announces is dropped with it. -/
def endDiscarded (message text : Text) (r : Reader) : Reader × LineOutcome :=
  let done := ({ r with discarding := none, textLen := 0, parts := [] },
    LineOutcome.emit (.error message))
  match matchLiteralTail text with
  | some lit => if lit.nonSync then ({ r with literalRemaining := some lit.size }, .skip) else done
  | none => done

def beginLiteral (lit : LiteralTail) (r : Reader) : Reader × LineOutcome :=
  let cap := if lit.nonSync then min r.maxLiteralBytes r.maxNonSyncLiteralBytes
    else r.maxLiteralBytes
  let opened := { r with
    parts := r.parts ++ [.text lit.before]
    textLen := r.textLen + lit.before.length
    literalRemaining := some lit.size }
  if cap < lit.size then
    if lit.nonSync then ({ opened with discarding := some "literal too large".toList }, .skip)
    else ({ r with parts := [], textLen := 0 }, .emit (.error "literal too large".toList))
  else if lit.nonSync then (opened, .skip)
  else (opened, .emit (.continue lit.size))

/-- A complete logical line; an empty last piece of text is left out only when
nothing stands before it. -/
def endLine (text : Text) (r : Reader) : Reader × LineOutcome :=
  ({ r with parts := [], textLen := 0 },
    .emit (.line (if text = [] ∧ r.parts = [] then [] else r.parts ++ [LinePart.text text])))

def consumeLine (r : Reader) : Reader × LineOutcome :=
  match cutLine r.buffer with
  | none => (awaitLine r, .wait)
  | some (lineBytes, rest) =>
    let text := latin1Decode (stripCR lineBytes)
    let r := { r with buffer := rest }
    match r.discarding with
    | some message => endDiscarded message text r
    | none =>
      if r.maxLineBytes < r.textLen + text.length then
        ({ r with textLen := 0, parts := [] }, .emit (.error "line too long".toList))
      else
        match matchLiteralTail text with
        | some lit => beginLiteral lit r
        | none => endLine text r

/-- One round of the loop: it stops, or goes on after at most one event. -/
inductive Pass where
  | stop (r : Reader)
  | go (r : Reader) (ev : Option ReaderEvent)

def pass (r : Reader) : Pass :=
  match r.literalRemaining with
  | some remaining =>
    let s := consumeLiteral remaining r
    if s.2 then .go s.1 none else .stop s.1
  | none =>
    match consumeLine r with
    | (r, .wait) => .stop r
    | (r, .skip) => .go r none
    | (r, .emit ev) => .go r (some ev)

def work (r : Reader) : Nat := 2 * r.buffer.length + if r.literalRemaining = none then 0 else 1

theorem consumeLine_buffer {r : Reader} {s : Reader} {o : LineOutcome}
    (h : consumeLine r = (s, o)) (ho : o ≠ .wait) : s.buffer.length < r.buffer.length := by
  unfold consumeLine at h
  cases hcut : cutLine r.buffer with
  | none =>
    simp only [hcut, Prod.mk.injEq] at h
    exact absurd h.2.symm ho
  | some p =>
    obtain ⟨line, rest⟩ := p
    have hlen := length_of_cutLine hcut
    suffices hs : s.buffer = rest by rw [hs]; exact hlen
    simp only [hcut, endDiscarded, beginLiteral, endLine] at h
    split at h
    · split at h
      · split at h <;> cases h <;> rfl
      · cases h; rfl
    · split at h
      · cases h; rfl
      · split at h
        · split at h <;> split at h <;> cases h <;> rfl
        · cases h; rfl

theorem pass_work {r s : Reader} {ev : Option ReaderEvent} (h : pass r = .go s ev) :
    work s < work r := by
  unfold pass at h
  cases hlit : r.literalRemaining with
  | some remaining =>
    simp only [hlit] at h
    split at h
    · rename_i hdone
      cases h
      simp only [consumeLiteral] at hdone ⊢
      split at hdone
      · rename_i htake
        simp only [if_pos htake, work, hlit, List.length_drop]
        simp only [if_true, reduceCtorEq, if_false]
        omega
      · cases hdone
    · cases h
  | none =>
    simp only [hlit] at h
    have hbuf : s.buffer.length < r.buffer.length := by
      split at h
      · cases h
      · rename_i hline
        cases h
        exact consumeLine_buffer hline (by simp)
      · rename_i hline
        cases h
        exact consumeLine_buffer hline (by simp)
    simp only [work, hlit]
    split <;> omega

def loop (r : Reader) : Reader × List ReaderEvent :=
  match _h : pass r with
  | .stop s => (s, [])
  | .go s ev =>
    let t := loop s
    (t.1, ev.toList ++ t.2)
termination_by work r
decreasing_by exact pass_work _h

def feed (chunk : Bytes) (r : Reader) : Reader × List ReaderEvent :=
  loop { r with buffer := r.buffer ++ chunk }

end Reader

end Ionosphere.Imap
