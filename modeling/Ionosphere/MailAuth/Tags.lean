import Ionosphere.MailAuth.Canon
import Mathlib.Data.List.Basic

/-! Tag lists `tag=value; tag=value`. Each tag keeps where its value stands in the text. -/
namespace Ionosphere.MailAuth

open Ionosphere.Js

structure ParsedTag where
  tag : Text
  value : Text
  rawStart : Nat
  rawEnd : Nat
deriving DecidableEq

/-- `replace(/[ \t\r\n]+/g, "")`. -/
def stripFws (s : Text) : Text := s.filter fun c => ! [' ', '\t', '\r', '\n'].contains c

section

variable (u : CaseMap)

/-- The loop over the segments, with `offset`. -/
def parseSegments : Nat → List Text → Option (List ParsedTag)
  | _, [] => some []
  | offset, segment :: segments =>
    if trim segment = [] then parseSegments (offset + segment.length + 1) segments
    else
      match splitFirst '=' segment with
      | none => none
      | some (before, after) =>
        let tag := toLowerCase u (trim before)
        if tag = [] then none
        else (parseSegments (offset + segment.length + 1) segments).map fun tags =>
          ⟨tag, stripFws after, offset + before.length + 1, offset + segment.length⟩ :: tags

def parseTagList (text : Text) : Option (List ParsedTag) := parseSegments u 0 (text.splitOn ';')

end

def findTag (tags : List ParsedTag) (name : String) : Option Text :=
  (tags.find? fun t => t.tag = name.toList).map ParsedTag.value

def blankTag (text : Text) (t : ParsedTag) : Text := text.take t.rawStart ++ text.drop t.rawEnd

/-- A tag as the signer writes it, after `;` and a space. -/
def segmentText (p : Text × Text) : Text := ' ' :: p.1 ++ '=' :: p.2

def tagText (ps : List (Text × Text)) : Text := [';'].intercalate (ps.map segmentText)

/-- What is read of a written list that starts at `offset`. -/
def tagsAt : Nat → List (Text × Text) → List ParsedTag
  | _, [] => []
  | offset, p :: ps =>
    ⟨p.1, stripFws p.2, offset + p.1.length + 2, offset + (segmentText p).length⟩ ::
      tagsAt (offset + (segmentText p).length + 1) ps

def IsTagName (name : Text) : Prop := name ≠ [] ∧ ∀ c ∈ name, 97 ≤ c.toNat ∧ c.toNat ≤ 122

instance (name : Text) : Decidable (IsTagName name) := inferInstanceAs (Decidable (_ ∧ _))

/-- A written tag: its value cannot end it early. -/
structure Written (p : Text × Text) : Prop where
  name : IsTagName p.1
  value : ';' ∉ p.2

section

variable {u : CaseMap} {name : Text} {p : Text × Text} {ps : List (Text × Text)}

theorem trim_tagName (h : IsTagName name) : trim name = name := by
  refine trim_of_all fun c hc => ?_
  obtain ⟨hlow, hhigh⟩ := h.2 c hc
  rw [isWhiteSpace]
  simp only [Bool.or_eq_false_iff, Bool.and_eq_false_iff, decide_eq_false_iff_not, beq_eq_false_iff_ne]
  omega

theorem toLowerCase_tagName (h : IsTagName name) : toLowerCase u name = name := by
  have hascii : name.all isAscii = true := List.all_eq_true.mpr fun c hc => by
    have hhigh := (h.2 c hc).2
    rw [isAscii, decide_eq_true_eq]
    omega
  rw [toLowerCase, if_pos hascii]
  refine (List.map_congr_left fun c hc => ?_).trans (List.map_id name)
  have hlow := (h.2 c hc).1
  rw [asciiLower, if_neg (by simp only [Bool.and_eq_true, decide_eq_true_eq]; omega)]
  rfl

theorem notMem_tagName (h : IsTagName name) {c : Char} (hc : c.toNat < 97) : c ∉ name := by
  intro hmem
  have hlow := (h.2 c hmem).1
  omega

theorem trim_ne_nil {s : Text} {c : Char} (hc : c ∈ s) (hwhite : isWhiteSpace c = false) :
    trim s ≠ [] := by
  intro hnil
  rw [trim, List.rdropWhile_eq_nil_iff] at hnil
  have hmem : c ∈ s.takeWhile isWhiteSpace ∨ c ∈ trimStart s := by
    rwa [← List.mem_append, trimStart, List.takeWhile_append_dropWhile]
  have hc' : isWhiteSpace c = true := hmem.elim List.mem_takeWhile_imp (hnil c)
  simp [hwhite] at hc'

theorem parseSegments_written (h : ∀ p ∈ ps, Written p) (offset : Nat) :
    parseSegments u offset (ps.map segmentText) = some (tagsAt offset ps) := by
  induction ps generalizing offset with
  | nil => rfl
  | cons p ps ih =>
    obtain ⟨hp, hps⟩ := List.forall_mem_cons.mp h
    have hequals : '=' ∉ ' ' :: p.1 := by
      rw [List.mem_cons, not_or]
      exact ⟨by decide, notMem_tagName hp.name (by decide)⟩
    have hname : trim (' ' :: p.1) = p.1 := by
      rw [trim_cons_white (by decide), trim_tagName hp.name]
    have htrim : trim (segmentText p) ≠ [] :=
      trim_ne_nil (c := '=') (by simp [segmentText]) (by decide)
    rw [List.map_cons, parseSegments, if_neg htrim, segmentText, splitFirst_of_notMem hequals]
    dsimp only
    rw [hname, toLowerCase_tagName hp.name, if_neg hp.name.1, ← segmentText, ih hps, Option.map_some,
      tagsAt]
    simp only [List.length_cons]
    congr 3

theorem splitOn_tagText (hne : ps ≠ []) (h : ∀ p ∈ ps, Written p) :
    (tagText ps).splitOn ';' = ps.map segmentText := by
  refine List.splitOn_intercalate ';' (fun seg hseg => ?_) (by simpa using hne)
  obtain ⟨p, hp, rfl⟩ := List.mem_map.mp hseg
  simp only [segmentText, List.cons_append, List.mem_cons, List.mem_append, not_or]
  exact ⟨by decide, notMem_tagName (h p hp).name (by decide), by decide, (h p hp).value⟩

theorem parseTagList_tagText (hne : ps ≠ []) (h : ∀ p ∈ ps, Written p) :
    parseTagList u (tagText ps) = some (tagsAt 0 ps) := by
  rw [parseTagList, splitOn_tagText hne h, parseSegments_written h]

theorem findTag_tagsAt (ps : List (Text × Text)) (name : String) (offset : Nat) :
    findTag (tagsAt offset ps) name = (ps.find? fun p => p.1 = name.toList).map fun p => stripFws p.2 := by
  induction ps generalizing offset with
  | nil => rfl
  | cons p ps ih =>
    rw [findTag, tagsAt, List.find?_cons, List.find?_cons]
    by_cases hp : p.1 = name.toList
    · simp [hp]
    · simp only [hp, decide_false]
      exact ih _

theorem tagText_cons (hne : ps ≠ []) :
    tagText (p :: ps) = segmentText p ++ ';' :: tagText ps := by
  rw [tagText, List.map_cons, List.intercalate_cons_of_ne_nil (by simpa using hne),
    List.append_assoc]
  rfl

theorem tagText_concat (ps : List (Text × Text)) (name value : Text) :
    tagText (ps ++ [(name, value)]) = tagText (ps ++ [(name, [])]) ++ value := by
  induction ps with
  | nil => simp [tagText, segmentText]
  | cons q ps ih =>
    rw [List.cons_append, tagText_cons (by simp), ih, List.cons_append, tagText_cons (by simp),
      List.append_assoc]
    rfl

theorem tagsAt_concat (ps : List (Text × Text)) (p : Text × Text) (offset : Nat) :
    tagsAt offset (ps ++ [p]) = tagsAt offset ps ++
      [⟨p.1, stripFws p.2, offset + (tagText (ps ++ [(p.1, [])])).length,
        offset + (tagText (ps ++ [p])).length⟩] := by
  induction ps generalizing offset with
  | nil =>
    simp only [List.nil_append, tagsAt, tagText, List.map_cons, List.map_nil, segmentText,
      List.intercalate_singleton, List.length_cons, List.length_append, List.length_nil]
    rfl
  | cons q ps ih =>
    have hcons : ∀ r, (tagText (q :: (ps ++ [r]))).length =
        (segmentText q).length + ((tagText (ps ++ [r])).length + 1) := by
      intro r
      rw [tagText_cons (by simp), List.length_append, List.length_cons]
    simp only [List.cons_append, tagsAt, ih, hcons]
    simp only [List.cons.injEq, true_and, List.append_cancel_left_eq, ParsedTag.mk.injEq, and_true]
    omega

theorem blankTag_last (ps : List (Text × Text)) (name value : Text) :
    blankTag (tagText (ps ++ [(name, value)]))
      ⟨name, stripFws value, (tagText (ps ++ [(name, [])])).length,
        (tagText (ps ++ [(name, value)])).length⟩ = tagText (ps ++ [(name, [])]) := by
  rw [blankTag, List.drop_length, List.append_nil, tagText_concat ps name value]
  exact List.take_left

end

end Ionosphere.MailAuth
