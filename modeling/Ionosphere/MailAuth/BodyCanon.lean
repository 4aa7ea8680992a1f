import Ionosphere.MailAuth.Canon
import Mathlib.Data.List.Chain

/-! White space in runs, and the canonical body as the lines of the body one by one. -/
namespace Ionosphere.MailAuth

open Ionosphere.Js Ionosphere.Lib

def isWsp (c : Char) : Bool := c = ' ' || c = '\t'

theorem isWsp_iff (c : Char) : isWsp c = true ↔ c = ' ' ∨ c = '\t' := by simp [isWsp]

def dropTrailing (s : Text) : Text := s.rdropWhile isWsp

theorem rdropWhile_cons (p : Char → Bool) (c : Char) (s : Text) :
    (c :: s).rdropWhile p =
      if s.rdropWhile p = [] ∧ p c then [] else c :: s.rdropWhile p := by
  rw [List.rdropWhile, List.rdropWhile, List.reverse_cons, List.dropWhile_append]
  cases hrest : s.reverse.dropWhile p with
  | nil => cases hc : p c <;> simp [hc]
  | cons d t => simp

theorem dropTrailing_cons (c : Char) (s : Text) :
    dropTrailing (c :: s) =
      if dropTrailing s = [] ∧ isWsp c then [] else c :: dropTrailing s :=
  rdropWhile_cons isWsp c s

theorem collapseFrom_cons (b : Bool) (c : Char) (s : Text) :
    collapseFrom b (c :: s) =
      if isWsp c then (if b then [] else [' ']) ++ collapseFrom true s
      else c :: collapseFrom false s := by
  rw [collapseFrom]
  simp only [isWsp, Bool.or_eq_true, decide_eq_true_eq]

theorem canonLineFrom_cons (b : Bool) (c : Char) (s : Text) :
    canonLineFrom b (c :: s) =
      if isWsp c then canonLineFrom true s
      else (if b then [' '] else []) ++ c :: canonLineFrom false s := by
  rw [canonLineFrom]
  simp only [isWsp, Bool.or_eq_true, decide_eq_true_eq]

/-- The scanner holds a run of WSP back until it sees what follows it. -/
theorem canonLineFrom_eq (b : Bool) (s : Text) :
    canonLineFrom b s =
      (if b ∧ dropTrailing s ≠ [] then [' '] else []) ++ collapseFrom b (dropTrailing s) := by
  induction s generalizing b with
  | nil => cases b <;> rfl
  | cons c s ih =>
    have hopen := ih true
    have hshut := ih false
    rw [canonLineFrom_cons]
    cases hc : isWsp c with
    | true =>
      rw [if_pos rfl, hopen]
      by_cases hend : dropTrailing s = []
      · have hnone : dropTrailing (c :: s) = [] := by rw [dropTrailing_cons, if_pos ⟨hend, hc⟩]
        simp [hnone, hend, collapseFrom]
      · have hkept : dropTrailing (c :: s) = c :: dropTrailing s := by
          rw [dropTrailing_cons, if_neg (fun h => hend h.1)]
        rw [hkept, collapseFrom_cons, hc]
        cases b <;> simp [hend]
    | false =>
      have hkept : dropTrailing (c :: s) = c :: dropTrailing s := by
        rw [dropTrailing_cons, if_neg (fun h => Bool.false_ne_true (hc ▸ h.2))]
      rw [if_neg Bool.false_ne_true, hshut, hkept, collapseFrom_cons, hc]
      cases b <;> simp

theorem canonRelaxedBodyLine_eq (line : Text) :
    canonRelaxedBodyLine line = collapseFrom false (dropTrailing line) := by
  rw [canonRelaxedBodyLine, canonLineFrom_eq]
  simp

theorem canonLineFrom_canonLineFrom (b : Bool) (s : Text) :
    canonLineFrom false (canonLineFrom b s) = canonLineFrom b s := by
  induction s generalizing b with
  | nil => rfl
  | cons c s ih =>
    have hopen := ih true
    have hshut := ih false
    have hsp : isWsp ' ' = true := rfl
    rw [canonLineFrom_cons]
    cases hc : isWsp c with
    | true => exact hopen
    | false =>
      cases b with
      | true => simp [canonLineFrom_cons, hc, hsp, hshut]
      | false => simp [canonLineFrom_cons, hc, hshut]

theorem canonRelaxedBodyLine_idempotent (line : Text) :
    canonRelaxedBodyLine (canonRelaxedBodyLine line) = canonRelaxedBodyLine line :=
  canonLineFrom_canonLineFrom false line

theorem head_canonLineFrom_true (s : Text) : ∀ d ∈ (canonLineFrom true s).head?, d = ' ' := by
  induction s with
  | nil => exact nofun
  | cons c s ih =>
    rw [canonLineFrom_cons]
    cases hc : isWsp c with
    | true => exact ih
    | false =>
      intro d hd
      exact (Option.some.inj hd).symm

theorem head_canonLineFrom_false (s : Text) :
    ∀ d ∈ (canonLineFrom false s).head?, d = ' ' ∨ s.head? = some d := by
  cases s with
  | nil => exact nofun
  | cons c s =>
    rw [canonLineFrom_cons]
    cases hc : isWsp c with
    | true => exact fun d hd => .inl (head_canonLineFrom_true s d hd)
    | false => exact fun d hd => .inr hd

theorem uncut_canonLineFrom {s : Text} (h : Pieces.Uncut '\r' '\n' s) (b : Bool) :
    Pieces.Uncut '\r' '\n' (canonLineFrom b s) := by
  induction s generalizing b with
  | nil => exact List.IsChain.nil
  | cons c s ih =>
    obtain ⟨hhead, htail⟩ := List.isChain_cons.mp h
    rw [canonLineFrom_cons]
    cases hc : isWsp c with
    | true => exact ih htail true
    | false =>
      have hkept : Pieces.Uncut '\r' '\n' (c :: canonLineFrom false s) := by
        refine List.isChain_cons.mpr ⟨fun d hd hcut => ?_, ih htail false⟩
        rcases head_canonLineFrom_false s d hd with hsp | hnext
        · exact absurd (hsp.symm.trans hcut.2) (by decide)
        · exact hhead d hnext hcut
      cases b with
      | false => exact hkept
      | true => exact List.isChain_cons.mpr ⟨fun d _ hcut => absurd hcut.1 (by decide), hkept⟩

/-- The lines of a body: what CRLF ends, and what follows the last CRLF unless it is empty. -/
def bodyLines (body : Text) : List Text :=
  let pieces := Pieces.split '\r' '\n' body
  if pieces.getLast? = some [] then pieces.dropLast else pieces

def canonLine (mode : DkimCanonMode) (line : Text) : Text :=
  match mode with
  | .simple => line
  | .relaxed => collapseFrom false (dropTrailing line)

def rfcBody (body : Text) (mode : DkimCanonMode) : Text :=
  let lines := ((bodyLines body).map (canonLine mode)).rdropWhile (· = [])
  if lines = [] then (if mode = .simple then crlf else []) else lines.flatMap (· ++ crlf)

/-- The lines `canonBody` keeps. -/
def keptLines (body : Text) (mode : DkimCanonMode) : List Text :=
  ((Pieces.split '\r' '\n' body).map (canonLine mode)).rdropWhile (· = [])

theorem canonBody_eq (body : Text) (mode : DkimCanonMode) :
    canonBody body mode =
      if keptLines body mode = [] then (if mode = .simple then crlf else [])
      else Pieces.glue '\r' '\n' (keptLines body mode) ++ crlf := by
  have hlines : (if mode = .relaxed then (Pieces.split '\r' '\n' body).map canonRelaxedBodyLine
      else Pieces.split '\r' '\n' body) = (Pieces.split '\r' '\n' body).map (canonLine mode) := by
    cases mode with
    | relaxed =>
      rw [if_pos rfl]
      exact List.map_congr_left fun line _ => canonRelaxedBodyLine_eq line
    | simple => exact (List.map_id _).symm
  rw [canonBody]
  simp only [hlines]
  rfl

theorem canonLine_nil (mode : DkimCanonMode) : canonLine mode [] = [] := by
  cases mode <;> rfl

theorem rdropWhile_concat_nil (lines : List Text) :
    (lines ++ [[]]).rdropWhile (· = []) = lines.rdropWhile (· = []) :=
  List.rdropWhile_concat_pos _ _ _ (by simp)

theorem glue_crlf {lines : List Text} (h : lines ≠ []) :
    Pieces.glue '\r' '\n' lines ++ crlf = lines.flatMap (· ++ crlf) := by
  induction lines with
  | nil => exact absurd rfl h
  | cons l ls ih =>
    cases ls with
    | nil => simp [Pieces.glue]
    | cons m ms =>
      rw [Pieces.glue_cons (by simp), List.flatMap_cons, ← ih (by simp)]
      simp [crlf]

theorem keptLines_eq (body : Text) (mode : DkimCanonMode) :
    keptLines body mode = ((bodyLines body).map (canonLine mode)).rdropWhile (· = []) := by
  rw [keptLines, bodyLines]
  split_ifs with hlast
  · obtain ⟨init, hinit⟩ := List.getLast?_eq_some_iff.mp hlast
    rw [hinit, List.dropLast_concat, List.map_append, List.map_singleton, canonLine_nil,
      rdropWhile_concat_nil]
  · rfl

theorem canonBody_eq_rfcBody (body : Text) (mode : DkimCanonMode) :
    canonBody body mode = rfcBody body mode := by
  have hlines := keptLines_eq body mode
  rw [canonBody_eq, rfcBody, ← hlines]
  by_cases hnil : keptLines body mode = []
  · rw [if_pos hnil, if_pos hnil]
  · rw [if_neg hnil, if_neg hnil, glue_crlf hnil]

theorem canonLine_idempotent (mode : DkimCanonMode) (line : Text) :
    canonLine mode (canonLine mode line) = canonLine mode line := by
  cases mode with
  | simple => rfl
  | relaxed =>
    have h := canonRelaxedBodyLine_idempotent line
    rw [canonRelaxedBodyLine_eq, canonRelaxedBodyLine_eq] at h
    exact h

theorem uncut_canonLine {line : Text} (h : Pieces.Uncut '\r' '\n' line) (mode : DkimCanonMode) :
    Pieces.Uncut '\r' '\n' (canonLine mode line) := by
  cases mode with
  | simple => exact h
  | relaxed =>
    have hcanon := uncut_canonLineFrom h false
    rw [← canonRelaxedBodyLine, canonRelaxedBodyLine_eq] at hcanon
    exact hcanon

theorem mem_keptLines {body line : Text} {mode : DkimCanonMode} (h : line ∈ keptLines body mode) :
    Pieces.Uncut '\r' '\n' line ∧ canonLine mode line = line := by
  obtain ⟨piece, hpiece, heq⟩ := List.mem_map.mp ((List.rdropWhile_prefix _ _).mem h)
  rw [← heq]
  exact ⟨uncut_canonLine (Pieces.uncut_of_mem_split hpiece) mode, canonLine_idempotent mode piece⟩

theorem keptLines_crlf (body : Text) (mode : DkimCanonMode) :
    keptLines (body ++ crlf) mode = keptLines body mode := by
  have hsplit : Pieces.split '\r' '\n' (body ++ crlf) = Pieces.split '\r' '\n' body ++ [[]] :=
    Pieces.split_append (by decide) body []
  rw [keptLines, hsplit, List.map_append, List.map_singleton, canonLine_nil, rdropWhile_concat_nil]
  rfl

theorem canonBody_crlf (body : Text) (mode : DkimCanonMode) :
    canonBody (body ++ crlf) mode = canonBody body mode := by
  rw [canonBody_eq, canonBody_eq, keptLines_crlf]

theorem canonBody_idempotent (body : Text) (mode : DkimCanonMode) :
    canonBody (canonBody body mode) mode = canonBody body mode := by
  by_cases hnil : keptLines body mode = []
  · rw [canonBody_eq body, if_pos hnil]
    cases mode <;> decide
  · have hlines : keptLines (Pieces.glue '\r' '\n' (keptLines body mode)) mode =
        keptLines body mode := by
      have hsame : (keptLines body mode).map (canonLine mode) = keptLines body mode :=
        (List.map_congr_left fun line hline => (mem_keptLines hline).2).trans (List.map_id _)
      rw [keptLines, Pieces.split_glue_uncut (by decide) hnil fun line hline =>
        (mem_keptLines hline).1, hsame]
      exact List.rdropWhile_idempotent _ _
    have hcanon : canonBody body mode = Pieces.glue '\r' '\n' (keptLines body mode) ++ crlf := by
      rw [canonBody_eq, if_neg hnil]
    rw [hcanon, canonBody_crlf, canonBody_eq, hlines, if_neg hnil]

/-- The canonical body is that of the RFC. Neither canonicalizing it again nor empty lines after the
body change it. -/
theorem canonical_body (body : Text) (mode : DkimCanonMode) :
    canonBody body mode = rfcBody body mode ∧
    canonBody (canonBody body mode) mode = canonBody body mode ∧
    ∀ n, canonBody (body ++ (List.replicate n crlf).flatten) mode = canonBody body mode := by
  refine ⟨canonBody_eq_rfcBody body mode, canonBody_idempotent body mode, fun n => ?_⟩
  induction n with
  | zero => simp
  | succ n ih =>
    rw [List.replicate_succ', List.flatten_concat, ← List.append_assoc, canonBody_crlf, ih]

end Ionosphere.MailAuth
