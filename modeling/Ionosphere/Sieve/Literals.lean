import Ionosphere.Sieve.Lexer

/-! Strings as a script writes them: quoted with escapes, or as dot-stuffed lines. -/
namespace Ionosphere.Sieve

open Ionosphere.Js

def escaped (s : Text) : Text := s.flatMap fun c => if c = '"' ∨ c = '\\' then ['\\', c] else [c]

def quotedForm (s : Text) : Text := '"' :: (escaped s ++ ['"'])

def crlf : Text := ['\r', '\n']

def stuffed (line : Text) : Text := if line.head? = some '.' then '.' :: line else line

/-- `pad` is what stands behind `text:` on its line. -/
def textForm (pad : Text) (lines : List Text) : Text :=
  "text:".toList ++ (pad ++ '\n' :: (lines.flatMap fun line => stuffed line ++ crlf)) ++ '.' :: crlf

theorem quoted_escaped (s rest : Text) : quoted (escaped s ++ '"' :: rest) = some (s, rest) := by
  induction s with
  | nil => rfl
  | cons c s ih =>
    rw [escaped, List.flatMap_cons, List.append_assoc]
    by_cases hc : c = '"' ∨ c = '\\'
    · rw [if_pos hc, List.cons_append, List.cons_append, List.nil_append, quoted]
      exact congrArg _ ih
    · obtain ⟨hquote, hslash⟩ := not_or.mp hc
      rw [if_neg hc, List.singleton_append, quoted.eq_5]
      · exact congrArg _ ih
      · exact hquote
      · exact fun h _ => hslash h
      · exact fun _ _ h _ => hslash h

theorem scan_quoted (start : Nat) (s rest : Text) :
    scan start '"' (escaped s ++ '"' :: rest) = .ok (some (.string s), rest) := by
  unfold scan
  rw [if_neg (by decide), if_neg (by decide), if_neg (fun h => absurd h.1 (by decide)),
    if_neg (by decide), if_neg (by decide), if_neg (by decide), if_pos rfl, quoted_escaped]

theorem multiline_line {x : Text} (h : '\n' ∉ x) (line s : Text) :
    multiline line (x ++ '\n' :: s) =
      if trimCr (line ++ x) = ['.'] then .ok ([], s)
      else if s = [] then .error (line ++ x ++ ['\n'])
      else (multiline [] s).map fun p => (unstuffed (trimCr (line ++ x)) ++ p.1, p.2) := by
  induction x generalizing line with
  | nil => rw [List.nil_append, multiline, if_pos rfl, List.append_nil]
  | cons c x ih =>
    rw [List.mem_cons, not_or] at h
    rw [List.cons_append, multiline, if_neg (Ne.symm h.1), ih h.2]
    simp only [List.append_assoc, List.singleton_append]

theorem trimCr_append (x : Text) : trimCr (x ++ ['\r']) = x := by
  rw [trimCr, List.getLast?_concat, if_pos rfl, List.dropLast_concat]

theorem unstuffed_stuffed (line : Text) : unstuffed (stuffed line) = line ++ crlf := by
  unfold stuffed
  cases line with
  | nil => rfl
  | cons c line =>
    by_cases hc : c = '.'
    · rw [hc]
      rfl
    · have hplain : ['.', '.'].isPrefixOf (c :: line) = false := by
        simp [List.isPrefixOf, Ne.symm hc]
      have hhead : ¬ (c :: line).head? = some '.' := fun h => hc (Option.some.inj h)
      rw [if_neg hhead, unstuffed, hplain]
      rfl

theorem stuffed_ne_dot (line : Text) : stuffed line ≠ ['.'] := by
  unfold stuffed
  split
  · rename_i hhead
    cases line with
    | nil => cases hhead
    | cons c line => exact fun h => by cases h
  · rename_i hhead
    rintro rfl
    exact hhead rfl

theorem multiline_stuffed {lines : List Text} (h : ∀ line ∈ lines, '\n' ∉ line) (rest : Text) :
    multiline [] ((lines.flatMap fun line => stuffed line ++ crlf) ++ '.' :: (crlf ++ rest)) =
      .ok (lines.flatMap fun line => line ++ crlf, rest) := by
  induction lines with
  | nil => exact multiline_line (x := ['.', '\r']) (by decide) [] rest
  | cons line lines ih =>
    obtain ⟨hline, hlines⟩ := List.forall_mem_cons.mp h
    have hfree : '\n' ∉ stuffed line ++ ['\r'] := by
      unfold stuffed
      split <;> simp [hline]
    have hcut : (((line :: lines).flatMap fun line => stuffed line ++ crlf) ++
        '.' :: (crlf ++ rest)) = (stuffed line ++ ['\r']) ++ '\n' ::
          ((lines.flatMap fun line => stuffed line ++ crlf) ++ '.' :: (crlf ++ rest)) := by
      simp [crlf]
    rw [hcut, multiline_line hfree, List.nil_append, trimCr_append, if_neg (stuffed_ne_dot line),
      if_neg (by simp), ih hlines, unstuffed_stuffed]
    rfl

theorem scan_textForm (start : Nat) {pad : Text} {lines : List Text} (hpad : '\n' ∉ pad)
    (h : ∀ line ∈ lines, '\n' ∉ line) (rest : Text) :
    scan start 't' ((textForm pad lines).tail ++ rest) =
      .ok (some (.string (lines.flatMap fun line => line ++ crlf)), rest) := by
  have hbody : (((textForm pad lines).tail ++ rest).drop 4).dropWhile (· ≠ '\n') =
      '\n' :: ((lines.flatMap fun line => stuffed line ++ crlf) ++ '.' :: (crlf ++ rest)) := by
    have hdrop : ((textForm pad lines).tail ++ rest).drop 4 = pad ++ '\n' ::
        ((lines.flatMap fun line => stuffed line ++ crlf) ++ '.' :: (crlf ++ rest)) := by
      unfold textForm
      simp
    rw [hdrop, List.dropWhile_append_of_pos fun c hc => by
      simpa using fun heq : c = '\n' => hpad (heq ▸ hc)]
    rfl
  have hprefix : "text:".toList.isPrefixOf ('t' :: ((textForm pad lines).tail ++ rest)) = true := by
    unfold textForm
    simp [List.isPrefixOf]
  unfold scan
  rw [if_neg (by decide), if_neg (by decide), if_neg (fun h => absurd h.1 (by decide)),
    if_neg (by decide), if_neg (by decide), if_neg (by decide), if_neg (by decide), if_pos hprefix]
  dsimp only
  rw [hbody, List.tail_cons, multiline_stuffed h]

/-- Alone, the literal is one token with this value; wherever it is met, reading goes on right
behind it. -/
def ReadsAs (literal s : Text) : Prop :=
  tokenize literal = .ok [⟨.string s, 0⟩] ∧
    ∀ n fuel rest, tokenizeFrom n (fuel + 1) (literal ++ rest) =
      (tokenizeFrom n fuel rest).map fun toks =>
        ⟨.string s, n - unitLength (literal ++ rest)⟩ :: toks

theorem readsAs_of_scan {c : Char} {literal s : Text}
    (h : ∀ start rest, scan start c (literal ++ rest) = .ok (some (.string s), rest)) :
    ReadsAs (c :: literal) s := by
  have hstep : ∀ n fuel rest, tokenizeFrom n (fuel + 1) (c :: literal ++ rest) =
      (tokenizeFrom n fuel rest).map fun toks =>
        ⟨.string s, n - unitLength (c :: literal ++ rest)⟩ :: toks := by
    intro n fuel rest
    rw [List.cons_append, tokenizeFrom, h]
  refine ⟨?_, hstep⟩
  have halone := hstep (unitLength (c :: literal)) literal.length []
  rw [List.append_nil, Nat.sub_self] at halone
  rw [tokenize, List.length_cons, halone]
  unfold tokenizeFrom
  rfl

/-- Both forms of a string are read back. -/
theorem literal_round_trip :
    (∀ s, ReadsAs (quotedForm s) s) ∧
      ∀ pad lines, '\n' ∉ pad → (∀ line ∈ lines, '\n' ∉ line) →
        ReadsAs (textForm pad lines) (lines.flatMap fun line => line ++ crlf) := by
  refine ⟨fun s => readsAs_of_scan fun start rest => ?_, fun pad lines hpad hlines => ?_⟩
  · rw [List.append_assoc]
    exact scan_quoted start s rest
  · exact readsAs_of_scan fun start rest => scan_textForm start hpad hlines rest

/-- A line that is a dot, and a quotation mark and a backslash in quotes. -/
theorem literal_round_trip_dot :
    ReadsAs "\"\\\"\\\\\"".toList "\"\\".toList ∧
      ReadsAs "text: # \"\r\n..\r\n.\r\n".toList ".\r\n".toList :=
  ⟨literal_round_trip.1 "\"\\".toList,
    literal_round_trip.2 " # \"\r".toList [".".toList] (by decide) (by decide)⟩

end Ionosphere.Sieve
