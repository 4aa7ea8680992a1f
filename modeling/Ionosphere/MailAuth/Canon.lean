import Ionosphere.Js.Text
import Ionosphere.Lib.Assoc
import Ionosphere.Lib.Pieces

/-! Canonicalization of header fields and bodies. Messages are strings with one character for
each byte. -/
namespace Ionosphere.MailAuth

open Ionosphere.Js Ionosphere.Lib

inductive DkimCanonMode where
  | relaxed
  | simple
deriving DecidableEq

def crlf : Text := ['\r', '\n']

/-- The replacement of `\r\n|\r|\n`: an LF right after a CR belongs to it. -/
def normalizeFrom : Bool → Text → Text
  | _, [] => []
  | afterCr, c :: s =>
    if c = '\r' then crlf ++ normalizeFrom true s
    else if c = '\n' then (if afterCr then [] else crlf) ++ normalizeFrom false s
    else c :: normalizeFrom false s

def normalizeLineEndings (bin : Text) : Text := normalizeFrom false bin

structure SplitMessage where
  headerBlock : Text
  body : Text

/-- What stands before the first empty line and what follows it. -/
def splitBlank : Text → Option (Text × Text)
  | [] => none
  | c :: s =>
    if (crlf ++ crlf).isPrefixOf (c :: s) then some ([], s.drop 3)
    else (splitBlank s).map fun p => (c :: p.1, p.2)

def splitMessage (bin : Text) : SplitMessage :=
  match splitBlank bin with
  | none => ⟨bin, []⟩
  | some (headerBlock, body) => ⟨headerBlock, body⟩

structure HeaderField where
  name : Text
  raw : Text
deriving DecidableEq

def isFieldNameChar (c : Char) : Bool :=
  (33 ≤ c.toNat && c.toNat ≤ 57) || (59 ≤ c.toNat && c.toNat ≤ 126)

/-- `FIELD_NAME_RE`. -/
def isFieldName : Text → Bool
  | [] => false
  | c :: s => isFieldNameChar c && s.all fun c => isFieldNameChar c || c = ' ' || c = '\t'

def isContinuation (line : Text) : Bool :=
  line.head? = some ' ' || line.head? = some '\t'

def addLine (records : List Text) (line : Text) : List Text :=
  if isContinuation line && !records.isEmpty then
    records.dropLast ++ [records.getLastD [] ++ crlf ++ line]
  else records ++ [line]

def toField (record : Text) : Option HeaderField :=
  match splitFirst ':' record with
  | none => none
  | some (name, _) => if isFieldName name then some ⟨name, record⟩ else none

def parseHeaderFields (headerBlock : Text) : List HeaderField :=
  if headerBlock = [] then []
  else ((Pieces.split '\r' '\n' headerBlock).foldl addLine []).filterMap toField

def collapseFrom : Bool → Text → Text
  | _, [] => []
  | inRun, c :: s =>
    if c = ' ' || c = '\t' then (if inRun then [] else [' ']) ++ collapseFrom true s
    else c :: collapseFrom false s

section

variable (u : CaseMap)

/-- Without a colon `slice` gets -1, which is the last character. -/
def canonHeaderField (field : HeaderField) : DkimCanonMode → Text
  | .simple => field.raw ++ crlf
  | .relaxed =>
    let (name, value) := (splitFirst ':' field.raw).getD (field.raw.dropLast, field.raw)
    let value := (Pieces.split '\r' '\n' value).flatten
    toLowerCase u (trim name) ++ ':' :: trim (collapseFrom false value) ++ crlf

def fieldKey (f : HeaderField) : Text := toLowerCase u (trim f.name)

def groupHeaderFields (fields : List HeaderField) : List (Text × List HeaderField) :=
  fields.foldl (fun groups f =>
    Assoc.set groups (fieldKey u f) ((Assoc.get groups (fieldKey u f)).getD [] ++ [f])) []

/-- The loop over `hNames`, with how many fields of each name are consumed. -/
def resolveFrom (groups : List (Text × List HeaderField)) :
    List (Text × Nat) → List Text → List (Option HeaderField)
  | _, [] => []
  | consumed, rawName :: hNames =>
    let name := toLowerCase u (trim rawName)
    let arr := (Assoc.get groups name).getD []
    let used := (Assoc.get consumed name).getD 0
    (if used < arr.length then arr[arr.length - 1 - used]? else none) ::
      resolveFrom groups (Assoc.set consumed name (used + 1)) hNames

def resolveHeaderSequence (groups : List (Text × List HeaderField)) (hNames : List Text) :
    List (Option HeaderField) := resolveFrom u groups [] hNames

def headerHashInput (resolved : List (Option HeaderField)) (mode : DkimCanonMode) : Text :=
  resolved.flatMap fun f => (f.map fun f => canonHeaderField u f mode).getD []

end

/-- The scanner of one line: a run of WSP is one SP, and nothing at the end of the line. -/
def canonLineFrom : Bool → Text → Text
  | _, [] => []
  | inRun, c :: s =>
    if c = ' ' || c = '\t' then canonLineFrom true s
    else (if inRun then [' '] else []) ++ c :: canonLineFrom false s

def canonRelaxedBodyLine (line : Text) : Text := canonLineFrom false line

def canonBody (body : Text) (mode : DkimCanonMode) : Text :=
  let lines := Pieces.split '\r' '\n' body
  let lines := if mode = .relaxed then lines.map canonRelaxedBodyLine else lines
  let lines := lines.rdropWhile (· = [])
  if lines = [] then (if mode = .simple then crlf else [])
  else Pieces.glue '\r' '\n' lines ++ crlf

def Plain (l : Text) : Prop := ∀ c ∈ l, c ≠ '\r' ∧ c ≠ '\n'

theorem Plain.notMem {l : Text} (h : Plain l) : '\r' ∉ l := fun hmem => (h _ hmem).1 rfl

theorem normalizeFrom_append (b : Bool) (x y : Text) :
    normalizeFrom b (x ++ '\r' :: '\n' :: y) = normalizeFrom b x ++ crlf ++ normalizeFrom false y := by
  induction x generalizing b with
  | nil => rfl
  | cons c x ih =>
    simp only [List.cons_append, normalizeFrom, ih]
    split_ifs <;> simp

theorem normalizeLineEndings_append (x y : Text) :
    normalizeLineEndings (x ++ '\r' :: '\n' :: y) =
      normalizeLineEndings x ++ '\r' :: '\n' :: normalizeLineEndings y := by
  rw [normalizeLineEndings, normalizeFrom_append, List.append_assoc]
  rfl

theorem normalizeLineEndings_plain {l : Text} (h : Plain l) : normalizeLineEndings l = l := by
  suffices hgen : ∀ b, normalizeFrom b l = l from hgen false
  intro b
  induction l generalizing b with
  | nil => rfl
  | cons c l ih =>
    obtain ⟨hc, hl⟩ := List.forall_mem_cons.mp h
    rw [normalizeFrom, if_neg hc.1, if_neg hc.2, ih hl]

theorem normalizeLineEndings_glue {ls : List Text} (h : ∀ l ∈ ls, Plain l) :
    normalizeLineEndings (Pieces.glue '\r' '\n' ls) = Pieces.glue '\r' '\n' ls := by
  induction ls with
  | nil => rfl
  | cons l ls ih =>
    obtain ⟨hl, hls⟩ := List.forall_mem_cons.mp h
    by_cases hnil : ls = []
    · rw [hnil]
      exact normalizeLineEndings_plain hl
    · rw [Pieces.glue_cons hnil, normalizeLineEndings_append, normalizeLineEndings_plain hl, ih hls]

theorem normalizeFrom_eq_glue (b : Bool) (s : Text) :
    ∃ ls, ls ≠ [] ∧ normalizeFrom b s = Pieces.glue '\r' '\n' ls ∧ ∀ l ∈ ls, Plain l := by
  have hbreak : ∀ {t : Text} {ls : List Text}, ls ≠ [] → t = Pieces.glue '\r' '\n' ls →
      (∀ l ∈ ls, Plain l) → ∃ ls', ls' ≠ [] ∧ crlf ++ t = Pieces.glue '\r' '\n' ls' ∧
        ∀ l ∈ ls', Plain l := by
    intro t ls hne ht hplain
    refine ⟨[] :: ls, by simp, ?_, List.forall_mem_cons.mpr ⟨nofun, hplain⟩⟩
    rw [Pieces.glue_cons hne, ht]
    rfl
  induction s generalizing b with
  | nil => exact ⟨[[]], by simp, rfl, by simp [Plain]⟩
  | cons c s ih =>
    rw [normalizeFrom]
    split_ifs with hcr hlf hafter
    · obtain ⟨ls, hne, heq, hplain⟩ := ih true
      exact hbreak hne heq hplain
    · exact ih false
    · obtain ⟨ls, hne, heq, hplain⟩ := ih false
      exact hbreak hne heq hplain
    · obtain ⟨ls, hne, heq, hplain⟩ := ih false
      refine ⟨Pieces.extend c ls, ?_, ?_, ?_⟩
      · cases ls <;> simp [Pieces.extend]
      · rw [Pieces.glue_extend hne, heq]
      · cases ls with
        | nil => exact absurd rfl hne
        | cons l ls =>
          obtain ⟨hl, hls⟩ := List.forall_mem_cons.mp hplain
          exact List.forall_mem_cons.mpr ⟨List.forall_mem_cons.mpr ⟨⟨hcr, hlf⟩, hl⟩, hls⟩

/-- An empty line is not found inside a line, nor before a line that is not empty. -/
theorem splitBlank_append {l : Text} (hl : Plain l) {y : Text} (hy : y.head? ≠ some '\r') :
    splitBlank (l ++ '\r' :: '\n' :: y) =
      (splitBlank y).map fun p => (l ++ '\r' :: '\n' :: p.1, p.2) := by
  induction l with
  | nil =>
    have hy' : List.isPrefixOf crlf y = false := by
      cases y with
      | nil => rfl
      | cons c y =>
        have hc : ('\r' == c) = false := by
          refine beq_eq_false_iff_ne.mpr fun hc => hy ?_
          rw [← hc]
          rfl
        simp [crlf, List.isPrefixOf, hc]
    have hlf : List.isPrefixOf (crlf ++ crlf) ('\n' :: y) = false := rfl
    have hcr : List.isPrefixOf (crlf ++ crlf) ('\r' :: '\n' :: y) = false := hy'
    rw [List.nil_append, splitBlank, hcr, if_neg Bool.false_ne_true, splitBlank, hlf,
      if_neg Bool.false_ne_true, Option.map_map]
    rfl
  | cons c l ih =>
    obtain ⟨hc, hl⟩ := List.forall_mem_cons.mp hl
    have hpre : List.isPrefixOf (crlf ++ crlf) (c :: (l ++ '\r' :: '\n' :: y)) = false := by
      have hcr : ('\r' == c) = false := beq_eq_false_iff_ne.mpr (Ne.symm hc.1)
      simp [crlf, List.isPrefixOf, hcr]
    rw [List.cons_append, splitBlank, hpre, if_neg Bool.false_ne_true, ih hl, Option.map_map]
    rfl

end Ionosphere.MailAuth
