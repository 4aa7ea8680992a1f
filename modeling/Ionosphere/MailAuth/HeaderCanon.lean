import Ionosphere.MailAuth.ArcFields
import Ionosphere.MailAuth.BodyCanon

/-! The relaxed form of a header field beside that of RFC 6376: the one trims what the language
calls white space, the other SP and TAB only. -/
namespace Ionosphere.MailAuth

open Ionosphere.Js Ionosphere.Lib

variable {c : Char} {s : Text} {name : Text}

theorem isWhiteSpace_of_isWsp (h : isWsp c) : isWhiteSpace c := by
  rcases (isWsp_iff c).mp h with rfl | rfl <;> decide

def dropWsp (s : Text) : Text := dropTrailing (s.dropWhile isWsp)

theorem trim_append_white (h : isWhiteSpace c) (s : Text) : trim (s ++ [c]) = trim s := by
  rw [trim, trimStart, List.dropWhile_append, trim, trimStart]
  split_ifs with hall
  · have hnil : s.dropWhile isWhiteSpace = [] := List.isEmpty_iff.mp hall
    rw [hnil, List.dropWhile_cons_of_pos h]
    rfl
  · exact List.rdropWhile_concat_pos _ _ _ h

theorem trim_dropTrailing (s : Text) : trim (dropTrailing s) = trim s := by
  induction s using List.reverseRecOn with
  | nil => rfl
  | append_singleton s c ih =>
    by_cases hc : isWsp c
    · rw [dropTrailing, List.rdropWhile_concat_pos _ _ _ hc,
        trim_append_white (isWhiteSpace_of_isWsp hc)]
      exact ih
    · rw [dropTrailing, List.rdropWhile_concat_neg _ _ _ hc]

theorem trim_dropWsp (s : Text) : trim (dropWsp s) = trim s := by
  rw [dropWsp, trim_dropTrailing]
  induction s with
  | nil => rfl
  | cons c s ih =>
    by_cases hc : isWsp c
    · rw [List.dropWhile_cons_of_pos hc, ih, trim_cons_white (isWhiteSpace_of_isWsp hc)]
    · rw [List.dropWhile_cons_of_neg hc]

def IsEnd (s : Text) (c : Char) : Prop := s.head? = some c ∨ s.getLast? = some c

theorem ends_trim (s : Text) : ∀ c, IsEnd (trim s) c → isWhiteSpace c = false := by
  intro c hc
  rcases hc with hhead | hlast
  · obtain ⟨t, ht⟩ : trim s <+: trimStart s := List.rdropWhile_prefix _ _
    have hfirst : (trimStart s).head? = some c := by
      rw [← ht, List.head?_append, hhead]
      rfl
    have hnot := List.head?_dropWhile_not isWhiteSpace s
    rw [trimStart] at hfirst
    rw [hfirst] at hnot
    simpa using hnot
  · have hne : trim s ≠ [] := by
      intro hnil
      rw [hnil] at hlast
      exact absurd hlast (by simp)
    have hget : (trim s).getLast hne = c := by
      rw [List.getLast?_eq_some_getLast hne] at hlast
      exact Option.some.inj hlast
    have hend : ¬isWhiteSpace ((trim s).getLast hne) := List.rdropWhile_last_not _ _ hne
    rw [hget] at hend
    simpa using hend

theorem trim_eq_self_iff (s : Text) : trim s = s ↔ ∀ c, IsEnd s c → isWhiteSpace c = false := by
  constructor
  · intro h
    rw [← h]
    exact ends_trim s
  · intro h
    exact trim_of_ends (fun c hc => h c (.inl hc)) fun c hc => h c (.inr hc)

theorem trim_trim (s : Text) : trim (trim s) = trim s := (trim_eq_self_iff _).mpr (ends_trim s)

theorem trim_eq_dropWsp_iff (s : Text) :
    trim s = dropWsp s ↔ ∀ c, IsEnd (dropWsp s) c → isWhiteSpace c = false := by
  rw [← trim_eq_self_iff, trim_dropWsp]

/-- Every run of WSP is one SP. -/
structure SingleSpaced (s : Text) : Prop where
  apart : s.IsChain fun a b => ¬(isWsp a ∧ isWsp b)
  noTab : '\t' ∉ s

theorem length_collapseFrom (b : Bool) (s : Text) : (collapseFrom b s).length ≤ s.length := by
  induction s generalizing b with
  | nil => exact Nat.le_refl 0
  | cons c s ih =>
    have hopen := ih true
    have hshut := ih false
    rw [collapseFrom_cons]
    cases isWsp c <;> cases b <;> simp <;> omega

theorem collapseFrom_true (h : ∀ c ∈ s.head?, isWsp c = false) :
    collapseFrom true s = collapseFrom false s := by
  cases s with
  | nil => rfl
  | cons c s => rw [collapseFrom_cons, collapseFrom_cons, h c rfl]; rfl

theorem length_collapse_run (h : isWsp c) (s : Text) :
    (collapseFrom true (c :: s)).length < (c :: s).length := by
  have hle := length_collapseFrom true s
  rw [collapseFrom_cons, if_pos h]
  simp only [if_true, List.nil_append, List.length_cons]
  omega

theorem singleSpaced_cons :
    SingleSpaced (c :: s) ↔
      c ≠ '\t' ∧ (isWsp c → ∀ d ∈ s.head?, isWsp d = false) ∧ SingleSpaced s := by
  constructor
  · rintro ⟨hchain, htab⟩
    obtain ⟨hhead, htail⟩ := List.isChain_cons.mp hchain
    obtain ⟨hc, hs⟩ := not_or.mp (List.mem_cons.not.mp htab)
    refine ⟨fun heq => hc heq.symm, fun hwsp d hd => ?_, htail, hs⟩
    exact Bool.eq_false_iff.mpr fun hd' => hhead d hd ⟨hwsp, hd'⟩
  · rintro ⟨hc, hnext, hchain, htab⟩
    refine ⟨List.isChain_cons.mpr ⟨fun d hd hboth => ?_, hchain⟩, ?_⟩
    · exact absurd hboth.2 (by rw [hnext hboth.1 d hd]; exact Bool.false_ne_true)
    · exact List.mem_cons.not.mpr (not_or.mpr ⟨fun heq => hc heq.symm, htab⟩)

theorem collapse_eq_self_iff (s : Text) : collapseFrom false s = s ↔ SingleSpaced s := by
  induction s with
  | nil => exact iff_of_true rfl ⟨List.IsChain.nil, by simp⟩
  | cons c s ih =>
    rw [collapseFrom_cons, singleSpaced_cons, ← ih]
    cases hc : isWsp c with
    | false =>
      have htab : c ≠ '\t' := by
        rintro rfl
        exact absurd hc (by decide)
      simp [htab]
    | true =>
      have hsp : ' ' = c ↔ c ≠ '\t' := by
        rcases (isWsp_iff c).mp hc with rfl | rfl <;> decide
      have hrest : collapseFrom true s = s ↔
          (∀ d ∈ s.head?, isWsp d = false) ∧ collapseFrom false s = s := by
        constructor
        · intro h
          have hhead : ∀ d ∈ s.head?, isWsp d = false := by
            intro d hd
            obtain ⟨t, ht⟩ := List.head?_eq_some_iff.mp hd
            refine Bool.eq_false_iff.mpr fun hd' => ?_
            have hlt := length_collapse_run hd' t
            rw [← ht, h] at hlt
            omega
          exact ⟨hhead, (collapseFrom_true hhead).symm.trans h⟩
        · rintro ⟨hhead, h⟩
          rw [collapseFrom_true hhead, h]
      simp [hsp, hrest]

theorem singleSpaced_collapse (s : Text) : SingleSpaced (collapseFrom false s) ∧
    SingleSpaced (collapseFrom true s) ∧ ∀ d ∈ (collapseFrom true s).head?, isWsp d = false := by
  induction s with
  | nil => exact ⟨⟨List.IsChain.nil, by simp [collapseFrom]⟩, ⟨List.IsChain.nil, by simp [collapseFrom]⟩, nofun⟩
  | cons c s ih =>
    obtain ⟨hshut, hopen, hhead⟩ := ih
    rw [collapseFrom_cons, collapseFrom_cons]
    cases hc : isWsp c with
    | true =>
      exact ⟨singleSpaced_cons.mpr ⟨by decide, fun _ => hhead, hopen⟩, hopen, hhead⟩
    | false =>
      have htab : c ≠ '\t' := by
        rintro rfl
        exact absurd hc (by decide)
      have hcons : SingleSpaced (c :: collapseFrom false s) :=
        singleSpaced_cons.mpr ⟨htab, fun hwsp => absurd hwsp (by simp [hc]), hshut⟩
      exact ⟨hcons, hcons, fun d hd => by rw [← Option.some.inj hd]; exact hc⟩

theorem getLast_dropTrailing_wsp (h : isWsp c) (s : Text) :
    (dropTrailing (c :: s)).getLast? = (dropTrailing s).getLast? := by
  rw [dropTrailing_cons]
  by_cases hnil : dropTrailing s = []
  · rw [if_pos ⟨hnil, h⟩, hnil]
  · rw [if_neg (fun hboth => hnil hboth.1), List.getLast?_cons, List.getLast?_eq_some_getLast hnil]
    rfl

theorem dropTrailing_cons_of_not (h : isWsp c = false) (s : Text) :
    dropTrailing (c :: s) = c :: dropTrailing s := by
  rw [dropTrailing_cons, if_neg (by simp [h])]

theorem head_dropWsp (s : Text) : (dropWsp s).head? = (s.dropWhile isWsp).head? := by
  have hnot := List.head?_dropWhile_not isWsp s
  rw [dropWsp]
  cases hs : s.dropWhile isWsp with
  | nil => rfl
  | cons c t =>
    rw [hs] at hnot
    rw [dropTrailing_cons_of_not (by simpa using hnot)]
    rfl

theorem getLast_dropWsp (s : Text) : (dropWsp s).getLast? = (dropTrailing s).getLast? := by
  induction s with
  | nil => rfl
  | cons c s ih =>
    by_cases hc : isWsp c
    · rw [getLast_dropTrailing_wsp hc, ← ih, dropWsp, List.dropWhile_cons_of_pos hc]
      rfl
    · rw [dropWsp, List.dropWhile_cons_of_neg hc]

theorem head_collapse (b : Bool) (s : Text) :
    ((collapseFrom b s).dropWhile isWsp).head? = (s.dropWhile isWsp).head? := by
  have hsp : isWsp ' ' = true := rfl
  induction s generalizing b with
  | nil => rfl
  | cons c s ih =>
    have hopen := ih true
    rw [collapseFrom_cons]
    cases hc : isWsp c with
    | true => cases b <;> simp [hc, hsp, hopen]
    | false => simp [hc]

theorem getLast_collapse (b : Bool) (s : Text) :
    (dropTrailing (collapseFrom b s)).getLast? = (dropTrailing s).getLast? := by
  have hsp : isWsp ' ' = true := rfl
  induction s generalizing b with
  | nil => rfl
  | cons c s ih =>
    have hopen := ih true
    have hshut := ih false
    rw [collapseFrom_cons]
    cases hc : isWsp c with
    | true =>
      rw [getLast_dropTrailing_wsp hc, ← hopen]
      cases b with
      | true => rfl
      | false => exact getLast_dropTrailing_wsp hsp _
    | false =>
      rw [if_neg Bool.false_ne_true, dropTrailing_cons_of_not hc, dropTrailing_cons_of_not hc,
        List.getLast?_cons, List.getLast?_cons, hshut]

theorem isEnd_dropWsp_collapse (s : Text) (c : Char) :
    IsEnd (dropWsp (collapseFrom false s)) c ↔
      (s.dropWhile isWsp).head? = some c ∨ (dropTrailing s).getLast? = some c := by
  rw [IsEnd, head_dropWsp, getLast_dropWsp, head_collapse, getLast_collapse]

theorem collapse_ne_nil {b : Bool} (h : ∃ c ∈ s, isWsp c = false) :
    collapseFrom b s ≠ [] := by
  obtain ⟨c, hc, hnot⟩ := h
  induction s generalizing b with
  | nil => cases hc
  | cons d s ih =>
    rw [collapseFrom_cons]
    rcases List.mem_cons.mp hc with heq | hmem
    · rw [← heq, hnot]
      exact List.cons_ne_nil _ _
    · split_ifs
      · exact List.append_ne_nil_of_right_ne_nil _ (ih hmem)
      · exact List.append_ne_nil_of_right_ne_nil _ (ih hmem)
      · exact List.cons_ne_nil _ _

/-- Whether the runs are collapsed before or after the end is cut off makes no difference. -/
theorem dropTrailing_collapse (b : Bool) (s : Text) :
    dropTrailing (collapseFrom b s) = collapseFrom b (dropTrailing s) := by
  have hsp : isWsp ' ' = true := rfl
  induction s generalizing b with
  | nil => rfl
  | cons c s ih =>
    have hopen := ih true
    have hshut := ih false
    rw [collapseFrom_cons]
    cases hc : isWsp c with
    | false =>
      rw [if_neg Bool.false_ne_true, dropTrailing_cons_of_not hc, dropTrailing_cons_of_not hc,
        collapseFrom_cons, hc, hshut]
      rfl
    | true =>
      rw [if_pos rfl]
      by_cases hend : dropTrailing s = []
      · have hnone : dropTrailing (c :: s) = [] := by rw [dropTrailing_cons, if_pos ⟨hend, hc⟩]
        have hrest : dropTrailing (collapseFrom true s) = [] := by
          rw [hopen, hend]
          rfl
        rw [hnone]
        cases b with
        | true => exact hrest
        | false =>
          show dropTrailing (' ' :: collapseFrom true s) = []
          rw [dropTrailing_cons, if_pos ⟨hrest, hsp⟩]
      · have hkept : dropTrailing (c :: s) = c :: dropTrailing s := by
          rw [dropTrailing_cons, if_neg (fun h => hend h.1)]
        have hlast : ¬isWsp ((dropTrailing s).getLast hend) := List.rdropWhile_last_not _ _ hend
        have hsome : collapseFrom true (dropTrailing s) ≠ [] :=
          collapse_ne_nil ⟨_, List.getLast_mem hend, by simpa using hlast⟩
        rw [hkept, collapseFrom_cons, if_pos hc]
        cases b with
        | true => exact hopen
        | false =>
          show dropTrailing (' ' :: collapseFrom true s) = ' ' :: collapseFrom true (dropTrailing s)
          rw [dropTrailing_cons, hopen, if_neg (fun h => hsome h.1)]

theorem fieldName_char (h : isFieldNameChar c) :
    33 ≤ c.toNat ∧ c.toNat ≤ 126 ∧ c.toNat ≠ 58 := by
  simp only [isFieldNameChar, Bool.or_eq_true, Bool.and_eq_true, decide_eq_true_eq] at h
  omega

theorem fieldName_notWhite (h : isFieldNameChar c) : isWhiteSpace c = false := by
  obtain ⟨hlow, hhigh, -⟩ := fieldName_char h
  rw [isWhiteSpace]
  simp only [Bool.or_eq_false_iff, Bool.and_eq_false_iff, decide_eq_false_iff_not, beq_eq_false_iff_ne]
  omega

theorem isFieldName_cons :
    isFieldName (c :: s) ↔ isFieldNameChar c ∧ ∀ d ∈ s, isFieldNameChar d ∨ isWsp d := by
  simp [isFieldName, isWsp, or_assoc]

theorem fieldName_mem (h : isFieldName name) :
    ∀ c ∈ name, isFieldNameChar c ∨ isWsp c := by
  cases name with
  | nil => exact nofun
  | cons c s =>
    obtain ⟨hc, hs⟩ := isFieldName_cons.mp h
    exact List.forall_mem_cons.mpr ⟨.inl hc, hs⟩

theorem isWhiteSpace_fieldName (h : isFieldName name) :
    ∀ c ∈ name, isWhiteSpace c = isWsp c := by
  intro c hc
  rcases fieldName_mem h c hc with hname | hwsp
  · have hnot := fieldName_notWhite hname
    have hwsp : isWsp c = false := by
      refine Bool.eq_false_iff.mpr fun hwsp => ?_
      exact absurd (isWhiteSpace_of_isWsp hwsp) (by rw [hnot]; exact Bool.false_ne_true)
    rw [hnot, hwsp]
  · rw [hwsp, isWhiteSpace_of_isWsp hwsp]

theorem rdropWhile_congr {p q : Char → Bool} (h : ∀ c ∈ s, p c = q c) :
    s.rdropWhile p = s.rdropWhile q := by
  induction s with
  | nil => rfl
  | cons c s ih =>
    obtain ⟨hc, hs⟩ := List.forall_mem_cons.mp h
    rw [rdropWhile_cons, rdropWhile_cons, ih hs, hc]

theorem trim_fieldName (h : isFieldName name) : trim name = dropTrailing name := by
  cases name with
  | nil => rfl
  | cons c s =>
    have hc := fieldName_notWhite (isFieldName_cons.mp h).1
    rw [trim, trimStart, List.dropWhile_cons_of_neg (by simp [hc])]
    exact rdropWhile_congr (isWhiteSpace_fieldName h)

theorem isFieldName_dropTrailing (h : isFieldName name) :
    isFieldName (dropTrailing name) := by
  cases name with
  | nil => cases h
  | cons c s =>
    obtain ⟨hc, hs⟩ := isFieldName_cons.mp h
    have hnot : isWsp c = false := by
      rw [← isWhiteSpace_fieldName h c List.mem_cons_self, fieldName_notWhite hc]
    rw [dropTrailing_cons_of_not hnot]
    refine isFieldName_cons.mpr ⟨hc, fun d hd => hs d ?_⟩
    exact (List.rdropWhile_prefix _ _).mem hd

theorem asciiLower_other (h : ¬(65 ≤ c.toNat ∧ c.toNat ≤ 90)) : asciiLower c = c :=
  if_neg (by simpa using h)

theorem asciiLower_upper (h : 65 ≤ c.toNat ∧ c.toNat ≤ 90) :
    (asciiLower c).toNat = c.toNat + 32 := by
  rw [asciiLower_eq, if_pos h]

theorem isWsp_asciiLower (c : Char) : isWsp (asciiLower c) = isWsp c := by
  by_cases h : 65 ≤ c.toNat ∧ c.toNat ≤ 90
  · have hlower := asciiLower_upper h
    have hne : ∀ d : Char, 65 ≤ d.toNat → isWsp d = false := by
      intro d hd
      refine Bool.eq_false_iff.mpr fun hwsp => ?_
      rcases (isWsp_iff d).mp hwsp with rfl | rfl
      · exact absurd hd (by decide)
      · exact absurd hd (by decide)
    rw [hne _ h.1, hne _ (by omega)]
  · rw [asciiLower_other h]

theorem isFieldNameChar_asciiLower (h : isFieldNameChar c) :
    isFieldNameChar (asciiLower c) := by
  by_cases hupper : 65 ≤ c.toNat ∧ c.toNat ≤ 90
  · have hlower := asciiLower_upper hupper
    simp only [isFieldNameChar, Bool.or_eq_true, Bool.and_eq_true, decide_eq_true_eq]
    omega
  · rw [asciiLower_other hupper]
    exact h

theorem isFieldName_lower (h : isFieldName name) :
    isFieldName (name.map asciiLower) := by
  cases name with
  | nil => cases h
  | cons c s =>
    obtain ⟨hc, hs⟩ := isFieldName_cons.mp h
    refine isFieldName_cons.mpr ⟨isFieldNameChar_asciiLower hc, fun d hd => ?_⟩
    obtain ⟨e, he, rfl⟩ := List.mem_map.mp hd
    rw [isWsp_asciiLower]
    exact (hs e he).imp_left isFieldNameChar_asciiLower

theorem dropTrailing_lower (s : Text) :
    dropTrailing (s.map asciiLower) = (dropTrailing s).map asciiLower := by
  induction s with
  | nil => rfl
  | cons c s ih =>
    rw [List.map_cons, dropTrailing_cons, dropTrailing_cons, ih, isWsp_asciiLower]
    simp only [List.map_eq_nil_iff]
    split_ifs <;> rfl

theorem lower_fieldName (u : CaseMap) (h : isFieldName name) :
    toLowerCase u (trim name) = (dropTrailing name).map asciiLower := by
  have hascii : (dropTrailing name).all isAscii = true := by
    refine List.all_eq_true.mpr fun c hc => ?_
    rw [isAscii, decide_eq_true_eq]
    rcases fieldName_mem (isFieldName_dropTrailing h) c hc with hname | hwsp
    · have hrange := fieldName_char hname
      omega
    · rcases (isWsp_iff c).mp hwsp with rfl | rfl <;> decide
  rw [trim_fieldName h, toLowerCase, if_pos hascii]

/-- The relaxed form of RFC 6376 section 3.4.2, for the texts on both sides of the colon. -/
def rfcHeaderField (name value : Text) : Text :=
  (dropTrailing (collapseFrom false (joined name))).map asciiLower ++
    ':' :: dropWsp (collapseFrom false (joined value)) ++ crlf

section

variable {u : CaseMap} {f : HeaderField} {value : Text}

theorem notMem_fieldName (h : isFieldName name) : ':' ∉ name ∧ '\r' ∉ name := by
  have hno : ∀ c, isFieldNameChar c = false → isWsp c = false → c ∉ name := by
    intro c hname hwsp hmem
    rcases fieldName_mem h c hmem with hc | hc
    · rw [hname] at hc
      exact Bool.false_ne_true hc
    · rw [hwsp] at hc
      exact Bool.false_ne_true hc
  exact ⟨hno ':' (by decide) (by decide), hno '\r' (by decide) (by decide)⟩

theorem canonHeaderField_relaxed (hname : isFieldName name) (hraw : f.raw = name ++ ':' :: value) :
    canonHeaderField u f .relaxed = (dropTrailing name).map asciiLower ++
      ':' :: trim (collapseFrom false (joined value)) ++ crlf := by
  have hsplit : splitFirst ':' f.raw = some (name, value) := by
    rw [hraw]
    exact splitFirst_of_notMem (notMem_fieldName hname).1 value
  rw [canonHeaderField, hsplit]
  simp only [Option.getD_some, lower_fieldName u hname, joined]

theorem mem_collapseFrom {b : Bool} (h : c ∈ collapseFrom b s) :
    c = ' ' ∨ c ∈ s := by
  induction s generalizing b with
  | nil => cases h
  | cons d s ih =>
    rw [collapseFrom_cons] at h
    split_ifs at h
    · exact (ih h).imp_right (List.mem_cons_of_mem _)
    · rcases List.mem_cons.mp h with heq | hmem
      · exact .inl heq
      · exact (ih hmem).imp_right (List.mem_cons_of_mem _)
    · rcases List.mem_cons.mp h with heq | hmem
      · exact .inr (by rw [heq]; exact List.mem_cons_self)
      · exact (ih hmem).imp_right (List.mem_cons_of_mem _)

theorem notMem_joined_value (hf : WellFormed f) (hname : isFieldName name)
    (hraw : f.raw = name ++ ':' :: value) : '\r' ∉ joined value := by
  obtain ⟨ls, hfolded, hglue⟩ := hf.folded
  have hplain := hfolded.plain
  have hsplit : Pieces.split '\r' '\n' f.raw = ls := by
    rw [hglue]
    exact Pieces.split_glue (by decide) hfolded.ne_nil fun l hl => (hplain l hl).notMem
  have hcr : '\r' ∉ name ++ [':'] := by simpa using (notMem_fieldName hname).2
  have hjoined : joined f.raw = name ++ [':'] ++ joined value := by
    rw [← joined_append hcr, hraw, List.append_assoc]
    rfl
  intro hmem
  have hraw' : '\r' ∈ joined f.raw := by
    rw [hjoined]
    exact List.mem_append_right _ hmem
  rw [joined, hsplit] at hraw'
  obtain ⟨l, hl, hc⟩ := List.mem_flatten.mp hraw'
  exact (hplain l hl).notMem hc

theorem joined_of_notMem (h : '\r' ∉ s) : joined s = s := by
  rw [joined, Pieces.split_of_notMem h, List.flatten_singleton]

theorem collapse_trim (s : Text) :
    collapseFrom false (trim (collapseFrom false s)) = trim (collapseFrom false s) := by
  obtain ⟨hchain, htab⟩ := (singleSpaced_collapse s).1
  have hpart : trim (collapseFrom false s) <:+: collapseFrom false s :=
    (List.rdropWhile_prefix _ _).isInfix.trans (List.dropWhile_suffix _).isInfix
  exact (collapse_eq_self_iff _).mpr ⟨ hchain.infix hpart, fun hmem => htab (hpart.subset hmem)⟩

theorem canonHeaderField_idempotent (hf : WellFormed f) (hname : isFieldName name)
    (hraw : f.raw = name ++ ':' :: value) {g : HeaderField}
    (hg : canonHeaderField u f .relaxed = g.raw ++ crlf) :
    canonHeaderField u g .relaxed = g.raw ++ crlf := by
  have hcanon := canonHeaderField_relaxed (u := u) hname hraw
  have hlower : isFieldName ((dropTrailing name).map asciiLower) :=
    isFieldName_lower (isFieldName_dropTrailing hname)
  have hgraw : g.raw = (dropTrailing name).map asciiLower ++
      ':' :: trim (collapseFrom false (joined value)) :=
    List.append_cancel_right (hg.symm.trans hcanon)
  have hcr : '\r' ∉ trim (collapseFrom false (joined value)) := by
    intro hmem
    rcases mem_collapseFrom (mem_of_mem_trim hmem) with hsp | hmem
    · exact absurd hsp (by decide)
    · exact notMem_joined_value hf hname hraw hmem
  have hagain : ((dropTrailing name).map asciiLower).map asciiLower =
      (dropTrailing name).map asciiLower := by
    rw [List.map_map]
    exact List.map_congr_left fun c _ => asciiLower_idem c
  have hend : dropTrailing (dropTrailing name) = dropTrailing name :=
    List.rdropWhile_idempotent _ _
  rw [canonHeaderField_relaxed hlower hgraw, joined_of_notMem hcr, collapse_trim, trim_trim,
    dropTrailing_lower, hend, hagain, hgraw]

theorem lower_collapse_iff (s : Text) :
    s.map asciiLower = (collapseFrom false s).map asciiLower ↔ SingleSpaced s := by
  rw [← collapse_eq_self_iff]
  constructor
  · induction s with
    | nil => exact fun _ => rfl
    | cons c s ih =>
      intro h
      rw [collapseFrom_cons] at h ⊢
      cases hc : isWsp c with
      | false =>
        rw [hc] at h
        rw [if_neg Bool.false_ne_true, ih (List.cons.inj h).2]
      | true =>
        rw [hc] at h
        obtain ⟨hfirst, hrest⟩ := List.cons.inj h
        have hrest : s.map asciiLower = (collapseFrom true s).map asciiLower := hrest
        have hsp : c = ' ' := by
          rcases (isWsp_iff c).mp hc with heq | rfl
          · exact heq
          · exact absurd hfirst (by decide)
        have hhead : ∀ d ∈ s.head?, isWsp d = false := by
          intro d hd
          obtain ⟨t, ht⟩ := List.head?_eq_some_iff.mp hd
          refine Bool.eq_false_iff.mpr fun hd' => ?_
          have hlt := length_collapse_run hd' t
          have hlen := congrArg List.length hrest
          rw [List.length_map, List.length_map, ht] at hlen
          omega
        have hopen := collapseFrom_true hhead
        rw [hopen] at hrest
        rw [if_pos rfl, hopen, ih hrest, hsp]
        rfl
  · intro h
    rw [h]

theorem field_text_inj {n m v w : Text} (hn : ':' ∉ n) (hm : ':' ∉ m) :
    n ++ ':' :: v ++ crlf = m ++ ':' :: w ++ crlf ↔ n = m ∧ v = w := by
  constructor
  · intro h
    have hfield := List.append_cancel_right h
    have hsplit := splitFirst_of_notMem hn v
    rw [hfield, splitFirst_of_notMem hm w] at hsplit
    obtain ⟨rfl, rfl⟩ := Prod.mk.inj (Option.some.inj hsplit)
    exact ⟨rfl, rfl⟩
  · rintro ⟨rfl, rfl⟩
    rfl

/-- The relaxed form is that of the RFC, and its own relaxed form, exactly when inside the name WSP
stands as single SPs and the value, WSP aside, begins and ends with no other white space of the
language: VT, FF or the byte A0. -/
theorem relaxed_header (hf : WellFormed f) (hraw : f.raw = f.name ++ ':' :: value) :
    (canonHeaderField u f .relaxed = rfcHeaderField f.name value ∧
      ∀ g : HeaderField, canonHeaderField u f .relaxed = g.raw ++ crlf →
        canonHeaderField u g .relaxed = g.raw ++ crlf) ↔
    SingleSpaced (dropTrailing f.name) ∧
      ∀ c, ((joined value).dropWhile isWsp).head? = some c ∨
          (dropTrailing (joined value)).getLast? = some c → isWhiteSpace c = false := by
  have hname : isFieldName f.name := (toField_eq_some hf.parsed).2.1
  have hidem : ∀ g : HeaderField, canonHeaderField u f .relaxed = g.raw ++ crlf →
      canonHeaderField u g .relaxed = g.raw ++ crlf :=
    fun g hg => canonHeaderField_idempotent hf hname hraw hg
  have hlower : ∀ n : Text, ':' ∉ n → ':' ∉ n.map asciiLower := by
    intro n hn hmem
    obtain ⟨c, hc, heq⟩ := List.mem_map.mp hmem
    by_cases hupper : 65 ≤ c.toNat ∧ c.toNat ≤ 90
    · have hnat := asciiLower_upper hupper
      rw [heq] at hnat
      have hcolon : ':'.toNat = 58 := rfl
      omega
    · rw [asciiLower_other hupper] at heq
      exact hn (heq ▸ hc)
  have hcolon : ':' ∉ dropTrailing f.name := fun hmem =>
    (notMem_fieldName hname).1 ((List.rdropWhile_prefix _ _).mem hmem)
  have hcolon' : ':' ∉ collapseFrom false (dropTrailing f.name) := by
    intro hmem
    rcases mem_collapseFrom hmem with hsp | hmem
    · exact absurd hsp (by decide)
    · exact hcolon hmem
  rw [and_iff_left hidem, canonHeaderField_relaxed hname hraw, rfcHeaderField,
    joined_of_notMem (notMem_fieldName hname).2, dropTrailing_collapse,
    field_text_inj (hlower _ hcolon) (hlower _ hcolon'), lower_collapse_iff, trim_eq_dropWsp_iff]
  simp only [isEnd_dropWsp_collapse]

end

def foldedSubject : HeaderField :=
  ⟨"Subject".toList, "Subject:\t Hello \r\n  world \t".toList⟩

theorem wellFormed_foldedSubject : WellFormed foldedSubject :=
  ⟨⟨["Subject:\t Hello ".toList, "  world \t".toList],
    .mk (by decide) (by decide) (by unfold Plain; decide), by decide⟩, by decide⟩

theorem relaxed_header_folded :
    (canonHeaderField ⟨id, id⟩ foldedSubject .relaxed =
        rfcHeaderField foldedSubject.name "\t Hello \r\n  world \t".toList ∧
      ∀ g : HeaderField, canonHeaderField ⟨id, id⟩ foldedSubject .relaxed = g.raw ++ crlf →
        canonHeaderField ⟨id, id⟩ g .relaxed = g.raw ++ crlf) ↔
    SingleSpaced (dropTrailing foldedSubject.name) ∧
      ∀ c, ((joined "\t Hello \r\n  world \t".toList).dropWhile isWsp).head? = some c ∨
          (dropTrailing (joined "\t Hello \r\n  world \t".toList)).getLast? = some c →
        isWhiteSpace c = false :=
  relaxed_header wellFormed_foldedSubject (by decide)

def accented : Bytes := utf8Encode "Subject: voil".toList ++ [0xc3, 0xa0, 13, 10, 13, 10]

def accentedValue : Text := " voil".toList ++ [Char.ofNat 0xc3, Char.ofNat 0xa0]

/-- The last byte of a letter is taken for white space. -/
theorem relaxed_header_fails :
    ¬ ∀ (raw : Bytes) (f : HeaderField) (value : Text), f ∈ (readMessage raw).1 →
      f.raw = f.name ++ ':' :: value →
        canonHeaderField ⟨id, id⟩ f .relaxed = rfcHeaderField f.name value := by
  intro h
  have hmem : ⟨"Subject".toList, "Subject:".toList ++ accentedValue⟩ ∈ (readMessage accented).1 := by
    decide +kernel
  have hsame := h accented _ accentedValue hmem (by decide)
  revert hsame
  decide +kernel

end Ionosphere.MailAuth
