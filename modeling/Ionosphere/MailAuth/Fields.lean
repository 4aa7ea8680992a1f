import Ionosphere.MailAuth.Canon

/-! Header blocks as lists of fields: what is parsed is well formed, well-formed fields are parsed
back, and a field in front of a block is one field more. -/
namespace Ionosphere.MailAuth

open Ionosphere.Js Ionosphere.Lib

variable {rs : List (List Text)} {ls : List Text}

def PlainLines (s : Text) : Prop := ∀ l ∈ Pieces.split '\r' '\n' s, Plain l

/-- The lines of one record. -/
inductive Folded : List Text → Prop
  | mk {l : Text} {cs : List Text} (hfirst : isContinuation l = false)
      (hrest : ∀ c ∈ cs, isContinuation c) (hplain : ∀ x ∈ l :: cs, Plain x) : Folded (l :: cs)

structure WellFormed (f : HeaderField) : Prop where
  folded : ∃ ls, Folded ls ∧ f.raw = Pieces.glue '\r' '\n' ls
  parsed : toField f.raw = some f

section

variable {R S : List Text} {lines : List Text} {l : Text}

theorem addLine_append (hS : S ≠ []) (l : Text) : addLine (R ++ S) l = R ++ addLine S l := by
  have hempty : (R ++ S).isEmpty = false := by simp [hS]
  have hempty' : S.isEmpty = false := by simp [hS]
  rw [addLine, addLine, hempty, hempty']
  split
  · rw [List.dropLast_append_of_ne_nil hS, List.getLastD_eq_getLast?, List.getLastD_eq_getLast?,
      List.getLast?_append_of_ne_nil _ hS, List.append_assoc]
  · rw [List.append_assoc]

theorem addLine_ne_nil : addLine S l ≠ [] := by
  rw [addLine]
  split <;> simp

theorem foldl_addLine_append (hS : S ≠ []) (lines : List Text) :
    lines.foldl addLine (R ++ S) = R ++ lines.foldl addLine S := by
  induction lines generalizing S with
  | nil => rfl
  | cons l lines ih => rw [List.foldl_cons, List.foldl_cons, addLine_append hS, ih addLine_ne_nil]

theorem addLine_first (h : isContinuation l = false) : addLine R l = R ++ [l] := by
  rw [addLine, h, Bool.false_and, if_neg Bool.false_ne_true]

theorem addLine_continuation (h : isContinuation l) (hls : ls ≠ []) :
    addLine [Pieces.glue '\r' '\n' ls] l = [Pieces.glue '\r' '\n' (ls ++ [l])] := by
  have hcond : (isContinuation l && ! [Pieces.glue '\r' '\n' ls].isEmpty) = true := by simp [h]
  rw [addLine, if_pos hcond, Pieces.glue_append hls (by simp)]
  simp [crlf, Pieces.glue]

theorem foldl_addLine_folded (h : Folded ls) (R : List Text) :
    ls.foldl addLine R = R ++ [Pieces.glue '\r' '\n' ls] := by
  obtain @⟨l, cs, hfirst, hrest, -⟩ := h
  rw [List.foldl_cons, addLine_first hfirst, foldl_addLine_append (by simp)]
  congr 1
  suffices hgen : ∀ ls : List Text, ls ≠ [] →
      cs.foldl addLine [Pieces.glue '\r' '\n' ls] = [Pieces.glue '\r' '\n' (ls ++ cs)] from
    hgen [l] (by simp)
  induction cs with
  | nil =>
    intro ls _
    rw [List.foldl_nil, List.append_nil]
  | cons c cs ih =>
    intro ls hls
    obtain ⟨hc, hcs⟩ := List.forall_mem_cons.mp hrest
    rw [List.foldl_cons, addLine_continuation hc hls, ih hcs _ (by simp), List.append_assoc]
    rfl

theorem foldl_addLine_flatten (h : ∀ ls ∈ rs, Folded ls) (R : List Text) :
    rs.flatten.foldl addLine R = R ++ rs.map (Pieces.glue '\r' '\n') := by
  induction rs generalizing R with
  | nil => exact (List.append_nil R).symm
  | cons ls rs ih =>
    obtain ⟨hls, hrs⟩ := List.forall_mem_cons.mp h
    rw [List.flatten_cons, List.foldl_append, foldl_addLine_folded hls, ih hrs, List.append_assoc]
    rfl

theorem record_lines (h : ∀ x ∈ lines, Plain x) : ∀ r ∈ lines.foldl addLine [],
    ∃ l cs, r = Pieces.glue '\r' '\n' (l :: cs) ∧ (∀ c ∈ cs, isContinuation c) ∧
      ∀ x ∈ l :: cs, Plain x := by
  induction lines using List.reverseRecOn with
  | nil => exact List.forall_mem_nil _
  | append_singleton lines x ih =>
    have hlines : ∀ y ∈ lines, Plain y := fun y hy => h y (List.mem_append_left _ hy)
    have hx : Plain x := h x (by simp)
    rw [List.foldl_concat]
    have hrecords := ih hlines
    generalize lines.foldl addLine [] = records at hrecords ⊢
    rw [addLine]
    split
    next hc =>
      rw [Bool.and_eq_true, Bool.not_eq_true', List.isEmpty_eq_false_iff] at hc
      obtain ⟨hcont, hne⟩ := hc
      obtain ⟨front, last, rfl⟩ := (List.eq_nil_or_concat' records).resolve_left hne
      obtain ⟨l, cs, rfl, hcs, hplain⟩ := hrecords last (by simp)
      intro r hr
      rw [List.dropLast_concat, List.getLastD_concat, List.mem_append, List.mem_singleton] at hr
      rcases hr with hfront | rfl
      · exact hrecords r (List.mem_append_left _ hfront)
      · refine ⟨l, cs ++ [x], ?_, ?_, ?_⟩
        · rw [← List.cons_append, Pieces.glue_append (by simp) (by simp), List.append_assoc]
          rfl
        · exact List.forall_mem_append.mpr ⟨hcs, by simpa using hcont⟩
        · rw [← List.cons_append]
          exact List.forall_mem_append.mpr ⟨hplain, by simpa using hx⟩
    next =>
      intro r hr
      rw [List.mem_append, List.mem_singleton] at hr
      rcases hr with hold | rfl
      · exact hrecords r hold
      · exact ⟨r, [], rfl, List.forall_mem_nil _, by simpa using hx⟩

end

section

variable {f : HeaderField} {record block : Text}

theorem parseHeaderFields_eq (block : Text) :
    parseHeaderFields block =
      ((Pieces.split '\r' '\n' block).foldl addLine []).filterMap toField := by
  rw [parseHeaderFields]
  split
  next h =>
    rw [h]
    rfl
  next => rfl

theorem toField_eq_some (h : toField record = some f) :
    f.raw = record ∧ isFieldName f.name ∧ ∃ value, record = f.name ++ ':' :: value := by
  rw [toField] at h
  split at h
  next => cases h
  next name value hsplit =>
    split_ifs at h with hname
    cases h
    exact ⟨rfl, hname, value, (eq_of_splitFirst hsplit).1⟩

theorem head_of_isFieldName {name : Text} (h : isFieldName name) :
    ∃ c s, name = c :: s ∧ isFieldNameChar c := by
  cases name with
  | nil => cases h
  | cons c s =>
    rw [isFieldName, Bool.and_eq_true] at h
    exact ⟨c, s, rfl, h.1⟩

theorem notContinuation_of_isFieldNameChar {c : Char} (h : isFieldNameChar c) (s : Text) :
    isContinuation (c :: s) = false ∧ c ≠ '\r' := by
  have hrange : 33 ≤ c.toNat := by
    simp only [isFieldNameChar, Bool.or_eq_true, Bool.and_eq_true, decide_eq_true_eq] at h
    omega
  have hne : ∀ d : Char, d.toNat < 33 → c ≠ d := by
    rintro d hd rfl
    omega
  refine ⟨?_, hne _ (by decide)⟩
  simp [isContinuation, hne ' ' (by decide), hne '\t' (by decide)]

theorem first_of_toField {l : Text} {cs : List Text}
    (h : toField (Pieces.glue '\r' '\n' (l :: cs)) = some f) : isContinuation l = false := by
  obtain ⟨-, hname, value, heq⟩ := toField_eq_some h
  obtain ⟨c, s, hcs, hc⟩ := head_of_isFieldName hname
  cases l with
  | nil => rfl
  | cons d l =>
    have hd : d = c := by
      cases cs with
      | nil =>
        rw [hcs] at heq
        exact (List.cons.inj heq).1
      | cons c' cs =>
        rw [hcs] at heq
        exact (List.cons.inj heq).1
    rw [hd]
    exact (notContinuation_of_isFieldNameChar hc l).1

theorem wellFormed_of_mem (h : PlainLines block) : ∀ f ∈ parseHeaderFields block, WellFormed f := by
  intro f hf
  rw [parseHeaderFields_eq, List.mem_filterMap] at hf
  obtain ⟨record, hrecord, hfield⟩ := hf
  obtain ⟨l, cs, rfl, hcs, hplain⟩ := record_lines h record hrecord
  have hraw := (toField_eq_some hfield).1
  exact ⟨⟨l :: cs, ⟨first_of_toField hfield, hcs, hplain⟩, hraw⟩, hraw ▸ hfield⟩

theorem glue_map_glue (h : ∀ ls ∈ rs, ls ≠ []) :
    Pieces.glue '\r' '\n' (rs.map (Pieces.glue '\r' '\n')) = Pieces.glue '\r' '\n' rs.flatten := by
  induction rs with
  | nil => rfl
  | cons ls rs ih =>
    obtain ⟨hls, hrs⟩ := List.forall_mem_cons.mp h
    by_cases hnil : rs = []
    · simp [hnil, Pieces.glue]
    · have hflat : rs.flatten ≠ [] := by
        obtain ⟨ls', rs', rfl⟩ := List.exists_cons_of_ne_nil hnil
        simp [(List.forall_mem_cons.mp hrs).1]
      rw [List.map_cons, Pieces.glue_cons (by simpa using hnil), ih hrs, List.flatten_cons,
        Pieces.glue_append hls hflat]

theorem Folded.ne_nil (h : Folded ls) : ls ≠ [] := by
  cases h
  simp

theorem Folded.plain (h : Folded ls) : ∀ x ∈ ls, Plain x := by
  cases h with
  | mk hfirst hrest hplain => exact hplain

theorem plain_flatten (h : ∀ ls ∈ rs, Folded ls) :
    ∀ x ∈ rs.flatten, Plain x := by
  intro x hx
  obtain ⟨ls, hls, hxls⟩ := List.mem_flatten.mp hx
  exact (h ls hls).plain x hxls

theorem flatten_ne_nil (h : ∀ ls ∈ rs, Folded ls) (hne : rs ≠ []) :
    rs.flatten ≠ [] := by
  obtain ⟨ls, rs', rfl⟩ := List.exists_cons_of_ne_nil hne
  simp [(List.forall_mem_cons.mp h).1.ne_nil]

theorem exists_lines {fs : List HeaderField} (h : ∀ f ∈ fs, WellFormed f) :
    ∃ rs : List (List Text), (∀ ls ∈ rs, Folded ls) ∧
      fs.map HeaderField.raw = rs.map (Pieces.glue '\r' '\n') := by
  induction fs with
  | nil => exact ⟨[], List.forall_mem_nil _, rfl⟩
  | cons f fs ih =>
    obtain ⟨hf, hfs⟩ := List.forall_mem_cons.mp h
    obtain ⟨ls, hls, hraw⟩ := hf.folded
    obtain ⟨rs, hrs, heq⟩ := ih hfs
    exact ⟨ls :: rs, List.forall_mem_cons.mpr ⟨hls, hrs⟩, by rw [List.map_cons, hraw, heq,
      List.map_cons]⟩

theorem parse_unparse {fs : List HeaderField} (hne : fs ≠ []) (h : ∀ f ∈ fs, WellFormed f) :
    parseHeaderFields (Pieces.glue '\r' '\n' (fs.map HeaderField.raw)) = fs := by
  obtain ⟨rs, hrs, heq⟩ := exists_lines h
  have hrsne : rs ≠ [] := by
    rintro rfl
    exact hne (List.map_eq_nil_iff.mp heq)
  rw [heq, glue_map_glue fun ls hls => (hrs ls hls).ne_nil, parseHeaderFields_eq,
    Pieces.split_glue (by decide) (flatten_ne_nil hrs hrsne)
      (fun x hx => (plain_flatten hrs x hx).notMem),
    foldl_addLine_flatten hrs, List.nil_append, ← heq, List.filterMap_map]
  exact (List.filterMap_congr fun f hf => (h f hf).parsed).trans List.filterMap_some

theorem parseHeaderFields_prepend (hrs : ∀ ls ∈ rs, Folded ls)
    (hne : rs ≠ [])
    (hblock : isContinuation ((Pieces.split '\r' '\n' block).headD []) = false) :
    parseHeaderFields (Pieces.glue '\r' '\n' rs.flatten ++ '\r' :: '\n' :: block) =
      (rs.map (Pieces.glue '\r' '\n')).filterMap toField ++ parseHeaderFields block := by
  have hsplit : Pieces.split '\r' '\n' (Pieces.glue '\r' '\n' rs.flatten) = rs.flatten :=
    Pieces.split_glue (by decide) (flatten_ne_nil hrs hne) fun x hx => (plain_flatten hrs x hx).notMem
  rw [parseHeaderFields_eq, Pieces.split_append (by decide), hsplit, List.foldl_append,
    foldl_addLine_flatten hrs, List.nil_append, parseHeaderFields_eq]
  cases hpieces : Pieces.split '\r' '\n' block with
  | nil => exact absurd hpieces (Pieces.split_ne_nil _)
  | cons l lines =>
    have hl : isContinuation l = false := by
      rw [hpieces] at hblock
      exact hblock
    rw [List.foldl_cons, addLine_first hl, foldl_addLine_append (by simp), List.foldl_cons,
      addLine_first hl, List.filterMap_append]
    congr 1

end

section

variable {u : CaseMap} {fields : List HeaderField} {f : HeaderField} {k : Text}

theorem get_groupHeaderFields (fields : List HeaderField) (k : Text) :
    Assoc.get (groupHeaderFields u fields) k =
      if (fields.filter fun f => fieldKey u f = k) = [] then none
      else some (fields.filter fun f => fieldKey u f = k) := by
  induction fields using List.reverseRecOn with
  | nil => rfl
  | append_singleton fields f ih =>
    rw [groupHeaderFields, List.foldl_concat, ← groupHeaderFields, Assoc.get_set,
      List.filter_append]
    by_cases hk : fieldKey u f = k
    · have hget : (Assoc.get (groupHeaderFields u fields) k).getD [] =
          fields.filter fun f => fieldKey u f = k := by
        rw [ih]
        split
        next h => rw [h]; rfl
        next => rfl
      have hone : [f].filter (fun f => fieldKey u f = k) = [f] := by simp [hk]
      rw [if_pos hk, hk, hget, hone, if_neg (by simp)]
    · have hone : [f].filter (fun f => fieldKey u f = k) = [] := by simp [hk]
      rw [if_neg hk, ih, hone, List.append_nil]

theorem getD_groupHeaderFields (fields : List HeaderField) (k : Text) :
    (Assoc.get (groupHeaderFields u fields) k).getD [] =
      fields.filter fun f => fieldKey u f = k := by
  rw [get_groupHeaderFields]
  split
  next h => rw [h]; rfl
  next => rfl

theorem isSome_groupHeaderFields (fields : List HeaderField) (k : Text) :
    (Assoc.get (groupHeaderFields u fields) k).isSome ↔ ∃ f ∈ fields, fieldKey u f = k := by
  rw [get_groupHeaderFields]
  split
  next h =>
    have hnone := List.filter_eq_nil_iff.mp h
    simp only [decide_eq_true_eq] at hnone
    simpa using hnone
  next h =>
    obtain ⟨f, hf⟩ := List.exists_mem_of_ne_nil _ h
    obtain ⟨hmem, hkey⟩ := List.mem_filter.mp hf
    simpa using ⟨f, hmem, of_decide_eq_true hkey⟩

theorem resolveFrom_congr {fields fields' : List HeaderField} {hNames : List Text}
    (h : ∀ n ∈ hNames, (fields.filter fun f => fieldKey u f = toLowerCase u (trim n)) =
      fields'.filter fun f => fieldKey u f = toLowerCase u (trim n))
    (consumed : List (Text × Nat)) :
    resolveFrom u (groupHeaderFields u fields) consumed hNames =
      resolveFrom u (groupHeaderFields u fields') consumed hNames := by
  induction hNames generalizing consumed with
  | nil => rfl
  | cons n hNames ih =>
    obtain ⟨hn, hrest⟩ := List.forall_mem_cons.mp h
    simp only [resolveFrom, getD_groupHeaderFields, hn, ih hrest]

end

end Ionosphere.MailAuth
