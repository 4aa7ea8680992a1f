import Ionosphere.Imap.Framing

/-! How much the reader keeps of a logical line that is not finished. The text of a line
is limited as a whole, a literal only by itself: a line may go on with any number of
literals, each within the limit. -/
namespace Ionosphere.Imap

open Ionosphere.Js Ionosphere.Core

variable {maxLine maxLiteral : Nat} {r : Reader} {lit : LiteralTail}

namespace Reader

def textBytes (parts : List LinePart) : Nat :=
  (parts.map fun
    | .text text => text.length
    | .literal _ => 0).sum

def literalBytes (parts : List LinePart) : Nat :=
  (parts.map fun
    | .text _ => 0
    | .literal bytes => bytes.length).sum

def retained (r : Reader) : Nat :=
  r.buffer.length + textBytes r.parts + literalBytes r.parts + r.literalChunks.flatten.length

@[simp]
theorem textBytes_append (ps qs : List LinePart) :
    textBytes (ps ++ qs) = textBytes ps + textBytes qs := by
  simp [textBytes]

@[simp]
theorem literalBytes_append (ps qs : List LinePart) :
    literalBytes (ps ++ qs) = literalBytes ps + literalBytes qs := by
  simp [literalBytes]

def pending (r : Reader) : Nat :=
  if r.discarding = none then r.literalRemaining.getD 0 else 0

/-- A line that begins a literal leaves the literals of the logical line, this one
included, within the limit for one. -/
def Affordable (r : Reader) : Prop :=
  r.literalRemaining = none → r.discarding = none →
    ∀ line rest lit, cutLine r.buffer = some (line, rest) → announced line = some lit →
      r.textLen + (stripCR line).length ≤ r.maxLineBytes → lit.size ≤ r.literalCap lit →
      literalBytes r.parts + lit.size ≤ r.maxLiteralBytes

def rounds (r : Reader) : List Reader :=
  match _h : pass r with
  | .stop _ => [r]
  | .go s _ => r :: rounds s
termination_by work r
decreasing_by exact pass_work _h

def roundsOf (r : Reader) : List Bytes → List Reader
  | [] => []
  | chunk :: chunks => rounds (r.plus chunk) ++ roundsOf (feed chunk r).1 chunks

def fedAll (r : Reader) : List Bytes → Reader
  | [] => r
  | chunk :: chunks => fedAll (feed chunk r).1 chunks

structure Bounded (maxLine maxLiteral : Nat) (r : Reader) : Prop where
  maxLineBytes : r.maxLineBytes = maxLine
  maxLiteralBytes : r.maxLiteralBytes = maxLiteral
  text : textBytes r.parts = r.textLen
  textLen : r.textLen ≤ maxLine
  literals : literalBytes r.parts + r.literalChunks.flatten.length + r.pending ≤ maxLiteral
  chunks : r.literalRemaining = none → r.literalChunks = []

/-- Between chunks the buffer holds an unfinished line within the limit, or nothing. -/
def Rested (r : Reader) : Prop :=
  r.buffer = [] ∨ r.textLen + r.buffer.length ≤ r.maxLineBytes

theorem retained_le (h : Bounded maxLine maxLiteral r)
    (hrest : Rested r) : r.retained ≤ maxLine + maxLiteral := by
  have htext := h.text
  have hlen := h.textLen
  have hlits := h.literals
  have hmax := h.maxLineBytes
  unfold retained
  obtain hempty | hfits := hrest
  · rw [hempty, List.length_nil]
    omega
  · omega

theorem literalDigits_before {nonSync : Bool} {rev : Text}
    (h : literalDigits nonSync rev = some lit) : lit.before.length ≤ rev.length := by
  have hdrop := (List.dropWhile_suffix (p := isDigit) (l := rev)).length_le
  unfold literalDigits at h
  dsimp only at h
  split at h
  · rename_i before heq
    split_ifs at h
    cases h
    rw [heq, List.length_cons] at hdrop
    rw [List.length_reverse]
    omega
  · cases h

theorem announced_before {line : Bytes} (h : announced line = some lit) :
    lit.before.length ≤ (stripCR line).length := by
  have hrev : (latin1Decode (stripCR line)).reverse.length = (stripCR line).length := by
    rw [List.length_reverse, latin1Decode_length]
  unfold announced matchLiteralTail at h
  split at h
  · rename_i rest heq
    have hshort := literalDigits_before h
    rw [heq, List.length_cons, List.length_cons] at hrev
    omega
  · rename_i rest _ heq
    have hshort := literalDigits_before h
    rw [heq, List.length_cons] at hrev
    omega
  · cases h

section
variable {s : Reader}

section

variable (h : Bounded maxLine maxLiteral r)

include h

theorem Bounded.setBuffer (buffer : Bytes) :
    Bounded maxLine maxLiteral { r with buffer := buffer } :=
  ⟨h.maxLineBytes, h.maxLiteralBytes, h.text, h.textLen, h.literals, h.chunks⟩

theorem Bounded.clear (hlit : r.literalRemaining = none)
    (discarding : Option Text) :
    Bounded maxLine maxLiteral
      { r with discarding := discarding, textLen := 0, parts := [] } := by
  refine ⟨h.maxLineBytes, h.maxLiteralBytes, rfl, Nat.zero_le _, ?_, h.chunks⟩
  simp [pending, literalBytes, hlit, h.chunks hlit]

theorem Bounded.takeLine {line rest : Bytes}
    (hafford : r.Affordable) (hlit : r.literalRemaining = none)
    (hcut : cutLine r.buffer = some (line, rest)) :
    Bounded maxLine maxLiteral (takeLine line { r with buffer := rest }).1 := by
  have hstep := takeLine_step line { r with buffer := rest }
  have hclear := (h.setBuffer rest).clear hlit
  generalize (Reader.takeLine line { r with buffer := rest }).1 = s,
    (Reader.takeLine line { r with buffer := rest }).2 = o at hstep
  cases hstep with
  | skipped hdisc hpush =>
    have hlits := h.literals
    rw [pending, if_neg (by simpa using Option.ne_none_iff_exists'.mpr ⟨_, hdisc⟩)] at hlits
    refine ⟨h.maxLineBytes, h.maxLiteralBytes, h.text, h.textLen, ?_, by simp⟩
    rw [pending, if_neg (by simpa using Option.ne_none_iff_exists'.mpr ⟨_, hdisc⟩)]
    exact hlits
  | dropped hdisc hpush => exact hclear none
  | tooLong hdisc hlong => exact hclear r.discarding
  | literal hdisc hfits hann hsize =>
    have hbefore := announced_before hann
    have htext := h.text
    have hmax := h.maxLineBytes
    have hroom := hafford hlit hdisc _ _ _ hcut hann hfits hsize
    have hchunks := h.chunks hlit
    dsimp only at hdisc hfits
    refine ⟨h.maxLineBytes, h.maxLiteralBytes, ?_, ?_, ?_, by simp [opened]⟩
    · simp [opened, textBytes] at htext ⊢
      omega
    · simp only [opened]
      omega
    · rw [h.maxLiteralBytes] at hroom
      simpa [opened, pending, hdisc, hchunks, literalBytes_append, literalBytes] using hroom
  | tooLarge hdisc hfits hann hsize hsync =>
    have hbefore := announced_before hann
    have htext := h.text
    have hmax := h.maxLineBytes
    have hlits := h.literals
    dsimp only at hfits
    refine ⟨h.maxLineBytes, h.maxLiteralBytes, ?_, ?_, ?_, by simp [opened]⟩
    · simp [opened, textBytes] at htext ⊢
      omega
    · simp only [opened]
      omega
    · simp [opened, pending, literalBytes] at hlits ⊢
      omega
  | refused hdisc hfits hann hsize hsync => exact hclear r.discarding
  | line hdisc hfits hann => exact hclear r.discarding

theorem Bounded.takeLiteral {size : Nat}
    (hlit : r.literalRemaining = some size) (hsize : size ≤ r.buffer.length) :
    Bounded maxLine maxLiteral (takeLiteral size r) := by
  have hlits := h.literals
  unfold pending at hlits
  rw [hlit] at hlits
  refine ⟨h.maxLineBytes, h.maxLiteralBytes, ?_, h.textLen, ?_, fun _ => rfl⟩
  · have htext := h.text
    simp only [Reader.takeLiteral]
    split_ifs
    · simpa [textBytes_append, textBytes] using htext
    · exact htext
  · have hpend : (Reader.takeLiteral size r).pending = 0 := by
      unfold pending
      split_ifs <;> rfl
    rw [hpend]
    simp only [Reader.takeLiteral, List.flatten_nil, List.length_nil]
    split_ifs at hlits ⊢ with hdisc
    · have hkept : literalBytes [.literal (r.literalChunks.flatten ++ r.buffer.take size)] =
          r.literalChunks.flatten.length + size := by
        simp [literalBytes, Nat.min_eq_left hsize]
      rw [literalBytes_append, hkept]
      rw [Option.getD_some] at hlits
      omega
    · omega

theorem Bounded.openLiteral {size : Nat}
    (hlit : r.literalRemaining = some size) (hsize : r.buffer.length < size) :
    Bounded maxLine maxLiteral (openLiteral size r) := by
  have hlits := h.literals
  unfold pending at hlits
  rw [hlit, Option.getD_some] at hlits
  refine ⟨h.maxLineBytes, h.maxLiteralBytes, h.text, h.textLen, ?_, by simp [Reader.openLiteral]⟩
  by_cases hdisc : r.discarding = none
  · rw [if_pos hdisc] at hlits
    have hchunks : (Reader.openLiteral size r).literalChunks.flatten.length =
        r.literalChunks.flatten.length + r.buffer.length := by
      cases hbuf : r.buffer <;> simp [Reader.openLiteral, hdisc, hbuf]
    have hpend : (Reader.openLiteral size r).pending = size - r.buffer.length := by
      simp [Reader.openLiteral, pending, hdisc]
    rw [hchunks, hpend]
    simp only [Reader.openLiteral]
    omega
  · rw [if_neg hdisc] at hlits
    simpa [Reader.openLiteral, pending, hdisc] using hlits

theorem Bounded.awaitLine (hlit : r.literalRemaining = none) :
    Bounded maxLine maxLiteral (awaitLine r) ∧ Rested (Reader.awaitLine r) := by
  by_cases hdisc : r.discarding = none
  · by_cases hlong : r.maxLineBytes < r.textLen + r.buffer.length
    · rw [awaitLine_long hdisc hlong]
      exact ⟨(h.setBuffer []).clear hlit _, .inl rfl⟩
    · rw [awaitLine_short hdisc hlong]
      exact ⟨h, .inr (Nat.le_of_not_lt hlong)⟩
  · rw [awaitLine_discarding hdisc]
    exact ⟨h.setBuffer [], .inl rfl⟩

theorem Bounded.go {ev : Option ReaderEvent}
    (hafford : r.Affordable) (hpass : pass r = .go s ev) : Bounded maxLine maxLiteral s := by
  obtain ⟨size, hlit, hsize, rfl, -⟩ | ⟨line, rest, hlit, -, -, hcut, rfl, -⟩ := pass_go_cases hpass
  · exact h.takeLiteral hlit hsize
  · exact h.takeLine hafford hlit hcut

theorem Bounded.stop (hpass : pass r = .stop s) :
    Bounded maxLine maxLiteral s ∧ Rested s := by
  obtain ⟨size, hlit, hsize, rfl⟩ | ⟨hlit, -, rfl⟩ := pass_stop_cases hpass
  · exact ⟨h.openLiteral hlit hsize, .inl rfl⟩
  · exact h.awaitLine hlit

end

theorem rounds_stop (h : pass r = .stop s) : rounds r = [r] := by
  rw [rounds.eq_def]
  split
  · rfl
  · rename_i heq
    rw [h] at heq
    cases heq

theorem rounds_go {ev : Option ReaderEvent} (h : pass r = .go s ev) :
    rounds r = r :: rounds s := by
  rw [rounds.eq_def]
  split
  · rename_i heq
    rw [h] at heq
    cases heq
  · rename_i heq
    rw [h] at heq
    cases heq
    rfl

theorem loop_bounded (h : Bounded maxLine maxLiteral r)
    (hafford : ∀ q ∈ rounds r, q.Affordable) :
    Bounded maxLine maxLiteral (loop r).1 ∧ Rested (loop r).1 := by
  induction r using loop.induct with
  | case1 r s hpass =>
    rw [loop_stop hpass]
    exact h.stop hpass
  | case2 r s ev hpass ih =>
    rw [rounds_go hpass] at hafford
    rw [loop_go hpass]
    refine ih (h.go (hafford r (by simp)) hpass) fun q hq => ?_
    exact hafford q (List.mem_cons_of_mem _ hq)

theorem fedAll_bounded {chunks : List Bytes} (h : Bounded maxLine maxLiteral r) (hrest : Rested r)
    (hafford : ∀ q ∈ roundsOf r chunks, q.Affordable) :
    Bounded maxLine maxLiteral (fedAll r chunks) ∧ Rested (fedAll r chunks) := by
  induction chunks generalizing r with
  | nil => exact ⟨h, hrest⟩
  | cons chunk chunks ih =>
    rw [roundsOf] at hafford
    obtain ⟨hafter, hrested⟩ := loop_bounded (h.setBuffer (r.buffer ++ chunk))
      fun q hq => hafford q (List.mem_append_left _ hq)
    exact ih hafter hrested fun q hq => hafford q (List.mem_append_right _ hq)

end

def newReader (maxLine maxLiteral maxNonSync : Nat) : Reader :=
  { maxLineBytes := maxLine, maxLiteralBytes := maxLiteral, maxNonSyncLiteralBytes := maxNonSync }

theorem retained_bounded {maxLine maxLiteral maxNonSync : Nat} {chunks : List Bytes}
    (hafford : ∀ q ∈ roundsOf (newReader maxLine maxLiteral maxNonSync) chunks, q.Affordable) :
    (fedAll (newReader maxLine maxLiteral maxNonSync) chunks).retained ≤ maxLine + maxLiteral := by
  have hnew : Bounded maxLine maxLiteral (newReader maxLine maxLiteral maxNonSync) :=
    ⟨rfl, rfl, rfl, Nat.zero_le _, Nat.zero_le _, fun _ => rfl⟩
  obtain ⟨hbounded, hrested⟩ := fedAll_bounded hnew (.inl rfl) hafford
  exact retained_le hbounded hrested

theorem takeLine_literal {line : Bytes}
    (hdisc : r.discarding = none) (hfits : r.textLen + (stripCR line).length ≤ r.maxLineBytes)
    (hann : announced line = some lit) (hsize : lit.size ≤ r.literalCap lit)
    (hsync : lit.nonSync = false) :
    takeLine line r = (r.opened lit, .emit (.continue lit.size)) := by
  unfold takeLine
  rw [hdisc]
  dsimp only
  rw [latin1Decode_length, if_neg (Nat.not_lt_of_le hfits), hann]
  dsimp only
  rw [beginLiteral_eq, if_neg (Nat.not_lt_of_le hsize), if_neg (by simp [hsync])]

def oneByteLiteral : Bytes := utf8Encode "\x7b1\x7d\r\na".toList

/-- The reader with the parts `ps` of a line that goes on. -/
def holding (maxLine maxLiteral maxNonSync : Nat) (ps : List LinePart) : Reader :=
  { newReader maxLine maxLiteral maxNonSync with parts := ps }

theorem oneByteLiteral_passes (maxNonSync : Nat) (ps : List LinePart)
    (hline : 3 ≤ maxLine) (hliteral : 1 ≤ maxLiteral) :
    let r := (holding maxLine maxLiteral maxNonSync ps).plus oneByteLiteral
    let r₁ := { holding maxLine maxLiteral maxNonSync (ps ++ [LinePart.text []]) with
      buffer := [0x61], literalRemaining := some 1 }
    let r₂ := holding maxLine maxLiteral maxNonSync (ps ++ [LinePart.text [], .literal [0x61]])
    pass r = .go r₁ (some (.continue 1)) ∧ pass r₁ = .go r₂ none ∧ pass r₂ = .stop r₂ := by
  intro r r₁ r₂
  refine ⟨?_, ?_, ?_⟩
  · have hcut : cutLine r.buffer = some (utf8Encode "\x7b1\x7d\r".toList, [0x61]) := by
      change cutLine oneByteLiteral = _
      decide
    have hann : announced (utf8Encode "\x7b1\x7d\r".toList) = some ⟨[], 1, false⟩ := by decide
    have hlen : (stripCR (utf8Encode "\x7b1\x7d\r".toList)).length = 3 := by decide
    have hfits : 0 + (stripCR (utf8Encode "\x7b1\x7d\r".toList)).length ≤ maxLine := by omega
    rw [pass_line rfl hcut, takeLine_literal (by rfl) (by exact hfits) hann (by exact hliteral) rfl]
    rfl
  · have hgo := pass_literal (r := r₁) rfl (by exact le_rfl)
    rw [hgo]
    simp [r₁, r₂, takeLiteral, holding, newReader]
  · rw [pass_open rfl (by simp [r₂, holding, newReader]), awaitLine_short rfl]
    simp [r₂, holding, newReader]

theorem oneByteLiteral_fed (maxNonSync : Nat) (ps : List LinePart)
    (hline : 3 ≤ maxLine) (hliteral : 1 ≤ maxLiteral) :
    (feed oneByteLiteral (holding maxLine maxLiteral maxNonSync ps)).1 =
      holding maxLine maxLiteral maxNonSync (ps ++ [LinePart.text [], .literal [0x61]]) := by
  obtain ⟨hfirst, hsecond, hthird⟩ := oneByteLiteral_passes maxNonSync ps hline hliteral
  rw [feed_eq, loop_go hfirst, loop_go hsecond, loop_stop hthird]

theorem oneByteLiteral_kept (maxNonSync n : Nat) (ps : List LinePart)
    (hline : 3 ≤ maxLine) (hliteral : 1 ≤ maxLiteral) :
    (fedAll (holding maxLine maxLiteral maxNonSync ps)
      (List.replicate n oneByteLiteral)).retained = textBytes ps + literalBytes ps + n := by
  induction n generalizing ps with
  | zero => simp [fedAll, holding, newReader, retained]
  | succ n ih =>
    rw [List.replicate_succ, fedAll, oneByteLiteral_fed maxNonSync ps hline hliteral, ih]
    simp [textBytes, literalBytes]
    omega

/-- With the default limits, more one-byte literals than the two limits allow together. -/
theorem retained_bounded_fails :
    let chunks := List.replicate (maxImapLineBytes + maxMessageBytes + 7) oneByteLiteral
    ¬(fedAll (newReader maxImapLineBytes maxMessageBytes defaultMaxNonSync) chunks).retained ≤
      maxImapLineBytes + maxMessageBytes + oneByteLiteral.length := by
  intro chunks
  have hkept : (fedAll (newReader maxImapLineBytes maxMessageBytes defaultMaxNonSync)
      chunks).retained = 0 + 0 + (maxImapLineBytes + maxMessageBytes + 7) :=
    oneByteLiteral_kept defaultMaxNonSync _ [] (by decide) (by decide)
  have hlen : oneByteLiteral.length = 6 := by decide
  rw [hkept, hlen]
  omega

theorem affordable_first (h : literalBytes r.parts = 0) : r.Affordable := by
  intro _ _ line rest lit _ _ _ hsize
  have hcap : r.literalCap lit ≤ r.maxLiteralBytes := by
    unfold literalCap
    split_ifs
    · exact Nat.min_le_left _ _
    · exact le_rfl
  omega

theorem retained_bounded_oneLiteral :
    (∀ q ∈ roundsOf (newReader 3 1 0) [oneByteLiteral], q.Affordable) ∧
      (fedAll (newReader 3 1 0) [oneByteLiteral]).retained ≤ 3 + 1 := by
  obtain ⟨hfirst, hsecond, hthird⟩ := oneByteLiteral_passes 0 [] (le_refl 3) (le_refl 1)
  have hafford : ∀ q ∈ roundsOf (newReader 3 1 0) [oneByteLiteral], q.Affordable := by
    intro q hq
    change q ∈ rounds ((holding 3 1 0 []).plus oneByteLiteral) ++ [] at hq
    rw [rounds_go hfirst, rounds_go hsecond, rounds_stop hthird] at hq
    simp only [List.append_nil, List.mem_cons, List.not_mem_nil, or_false] at hq
    obtain rfl | rfl | rfl := hq
    · exact affordable_first rfl
    · exact affordable_first rfl
    · intro _ _ line rest lit hcut
      cases hcut
  exact ⟨hafford, retained_bounded hafford⟩

end Reader

end Ionosphere.Imap
