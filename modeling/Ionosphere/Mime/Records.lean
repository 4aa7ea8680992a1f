import Ionosphere.Mime.Headers

/-! The records of a header, and when the parser and the authentication code read the same
fields from it. Both cut the same lines and fold them the same way. What differs is the name:
the parser takes it from the unfolded line and trims every white space off it, the
authentication code takes it from the first line and lets SP and TAB stand inside it. -/
namespace Ionosphere.Mime

open Ionosphere.Js Ionosphere.Lib Ionosphere.MailAuth

variable {s : Text} {c : Char}

/-- The lines between the line ends: CRLF, CR and LF. -/
def lines : Text → List Text
  | [] => [[]]
  | '\r' :: '\n' :: s => [] :: lines s
  | '\r' :: s => [] :: lines s
  | '\n' :: s => [] :: lines s
  | c :: s => Pieces.extend c (lines s)

theorem lines_ne_nil (s : Text) : lines s ≠ [] := by
  fun_cases lines s <;> simp
  cases lines ‹_› <;> simp [Pieces.extend]

theorem normalizeFrom_true (h : ∀ t, s ≠ '\n' :: t) :
    normalizeFrom true s = normalizeFrom false s := by
  cases s with
  | nil => rfl
  | cons c s =>
    have hc : c ≠ '\n' := fun hc => h s (by rw [hc])
    rw [normalizeFrom, normalizeFrom, if_neg hc, if_neg hc]

theorem split_crlf (s : Text) : Pieces.split '\r' '\n' (crlf ++ s) = [] ::
    Pieces.split '\r' '\n' s := by
  rw [crlf, List.cons_append, List.singleton_append, Pieces.split, if_pos ⟨rfl, rfl⟩]

theorem split_cons (hc : c ≠ '\r') (s : Text) :
    Pieces.split '\r' '\n' (c :: s) = Pieces.extend c (Pieces.split '\r' '\n' s) := by
  cases s with
  | nil => rfl
  | cons d s => rw [Pieces.split, if_neg fun h => hc h.1]

theorem split_normalize (s : Text) : Pieces.split '\r' '\n' (normalizeLineEndings s) = lines s := by
  rw [normalizeLineEndings]
  fun_induction lines s with
  | case1 => rfl
  | case2 s ih =>
    rw [← ih]
    exact split_crlf _
  | case3 s hlf ih =>
    rw [normalizeFrom, if_pos rfl, normalizeFrom_true fun t ht => hlf t ht, split_crlf, ih]
  | case4 s ih =>
    rw [← ih]
    exact split_crlf _
  | case5 c s _ hcr hlf ih =>
    rw [normalizeFrom, if_neg hcr, if_neg hlf, split_cons hcr, ih]

theorem cutLines_cons (hcr : c ≠ '\r') (hlf : c ≠ '\n') (s : Text) :
    (cutLines (c :: s)).map Prod.fst = Pieces.extend c ((cutLines s).map Prod.fst) := by
  rw [cutLines]
  · cases cutLines s <;> rfl
  all_goals simp [hcr, hlf]

theorem lines_eq (s : Text) :
    lines s = (cutLines s).map Prod.fst ∨ lines s = (cutLines s).map Prod.fst ++ [[]] := by
  fun_induction lines s with
  | case1 => exact .inr rfl
  | case2 s ih => exact ih.imp (congrArg ([] :: ·)) (congrArg ([] :: ·))
  | case3 s hlf ih =>
    have hcut : (cutLines ('\r' :: s)).map Prod.fst = [] :: (cutLines s).map Prod.fst := by
      rw [cutLines]
      · rfl
      · exact hlf
    rw [hcut]
    exact ih.imp (congrArg ([] :: ·)) (congrArg ([] :: ·))
  | case4 s ih => exact ih.imp (congrArg ([] :: ·)) (congrArg ([] :: ·))
  | case5 c s _ hcr hlf ih =>
    rw [cutLines_cons hcr hlf]
    rcases ih with ih | ih
    · exact .inl (congrArg (Pieces.extend c) ih)
    · cases hcut : (cutLines s).map Prod.fst with
      | nil => exact .inl (by rw [ih, hcut]; rfl)
      | cons l ls => exact .inr (by rw [ih, hcut]; rfl)

theorem mem_of_mem_lines {s l : Text} (hl : l ∈ lines s) : ∀ c ∈ l, c ∈ s ∧ c ≠ '\r' ∧ c ≠ '\n' := by
  fun_induction lines s generalizing l with
  | case1 => simp [List.mem_singleton.mp hl]
  | case2 s ih =>
    rcases List.mem_cons.mp hl with rfl | hl
    · nofun
    · exact fun c hc => (ih hl c hc).imp_left fun h => .tail _ (.tail _ h)
  | case3 s _ ih =>
    rcases List.mem_cons.mp hl with rfl | hl
    · nofun
    · exact fun c hc => (ih hl c hc).imp_left (.tail _)
  | case4 s ih =>
    rcases List.mem_cons.mp hl with rfl | hl
    · nofun
    · exact fun c hc => (ih hl c hc).imp_left (.tail _)
  | case5 d s _ hcr hlf ih =>
    intro c hc
    cases hls : lines s with
    | nil => exact absurd hls (lines_ne_nil s)
    | cons m ms =>
      rw [hls, Pieces.extend] at hl
      rcases List.mem_cons.mp hl with rfl | hl
      · rcases List.mem_cons.mp hc with rfl | hc
        · exact ⟨.head _, hcr, hlf⟩
        · exact (ih (by rw [hls]; exact .head _) c hc).imp_left (.tail _)
      · exact (ih (by rw [hls]; exact .tail _ hl) c hc).imp_left (.tail _)

/-- A line and those that continue it. -/
structure Folded where
  first : Text
  more : List Text

def Folded.unfolded (g : Folded) : Text := g.first ++ g.more.flatten
def Folded.raw (g : Folded) : Text := Pieces.glue '\r' '\n' (g.first :: g.more)

theorem Folded.raw_nil (line : Text) : Folded.raw ⟨line, []⟩ = line := rfl

def addFolded (groups : List Folded) (line : Text) : List Folded :=
  match groups.getLast? with
  | none => [⟨line, []⟩]
  | some last =>
    if isContinuation line then groups.dropLast ++ [⟨last.first, last.more ++ [line]⟩]
    else groups ++ [⟨line, []⟩]

def folded (ls : List Text) : List Folded := ls.foldl addFolded []

theorem addFolded_concat (groups : List Folded) (g : Folded) (line : Text) :
    addFolded (groups ++ [g]) line =
      if isContinuation line then groups ++ [⟨g.first, g.more ++ [line]⟩]
      else groups ++ [g] ++ [⟨line, []⟩] := by
  rw [addFolded, List.getLast?_concat]
  dsimp only
  rw [List.dropLast_concat]

theorem foldl_folded {β γ : Type*} (f : Folded → β) (key : γ → Text) {add : List β → γ → List β}
    (hnil : ∀ line, add [] line = [f ⟨key line, []⟩])
    (hcons : ∀ bs g line, add (bs ++ [f g]) line =
      if isContinuation (key line) then bs ++ [f ⟨g.first, g.more ++ [key line]⟩]
      else bs ++ [f g] ++ [f ⟨key line, []⟩]) (ls : List γ) :
    ls.foldl add [] = (folded (ls.map key)).map f := by
  suffices hgen : ∀ groups : List Folded,
      ls.foldl add (groups.map f) = ((ls.map key).foldl addFolded groups).map f from hgen []
  induction ls with
  | nil => exact fun _ => rfl
  | cons l ls ih =>
    intro groups
    rw [List.foldl_cons, List.map_cons, List.foldl_cons, ← ih]
    congr 1
    rcases List.eq_nil_or_concat' groups with rfl | ⟨gs, g, rfl⟩
    · exact hnil l
    · rw [List.map_append, List.map_singleton, hcons, addFolded_concat]
      split_ifs <;> simp

theorem foldl_addLine (ls : List Text) : ls.foldl addLine [] = (folded ls).map Folded.raw := by
  rw [foldl_folded Folded.raw id ?_ ?_ ls, List.map_id]
  · intro line
    simp [addLine, Folded.raw_nil]
  · intro bs g line
    have hglue : Folded.raw ⟨g.first, g.more ++ [line]⟩ = g.raw ++ crlf ++ line := by
      rw [Folded.raw, ← List.cons_append, Pieces.glue_append (by simp) (by simp), List.append_assoc]
      rfl
    dsimp only [id]
    rw [hglue]
    by_cases hc : isContinuation line = true <;> simp [addLine, hc, Folded.raw_nil]

/-- `unfolded` of the records so far. -/
def addUnfolded (parts : List Text) (line : Text × Text) : List Text :=
  if isContinuation line.1 && !parts.isEmpty then
    parts.dropLast ++ [parts.getLastD [] ++ line.1]
  else parts ++ [line.1]

theorem foldl_addPart (ls : List (Text × Text)) :
    (ls.foldl addPart []).map Prod.snd = (folded (ls.map Prod.fst)).map Folded.unfolded := by
  have hhom : ls.foldl addUnfolded ((@List.nil (Text × Text)).map Prod.snd) = (ls.foldl addPart []).map Prod.snd := by
    refine List.foldl_hom (List.map Prod.snd) fun parts line => ?_
    rcases List.eq_nil_or_concat' parts with rfl | ⟨ps, p, rfl⟩ <;>
      cases hc : isContinuation line.1 <;> simp [addUnfolded, addPart, hc]
  rw [← hhom]
  refine foldl_folded Folded.unfolded Prod.fst (fun line => ?_) (fun bs g line => ?_) ls
  · simp [addUnfolded, Folded.unfolded]
  · cases hc : isContinuation line.1 <;> simp [addUnfolded, Folded.unfolded, hc]

theorem folded_flatMap (ls : List Text) :
    (folded ls).flatMap (fun g => g.first :: g.more) = ls := by
  induction ls using List.reverseRecOn with
  | nil => rfl
  | append_singleton ls l ih =>
    rw [folded, List.foldl_concat, ← folded]
    rcases List.eq_nil_or_concat' (folded ls) with hnil | ⟨gs, g, hg⟩
    · rw [hnil] at ih ⊢
      rw [← ih]
      rfl
    · rw [hg] at ih ⊢
      rw [addFolded_concat, ← ih]
      split_ifs <;> simp

theorem folded_blank (ls : List Text) : folded (ls ++ [[]]) = folded ls ++ [⟨[], []⟩] := by
  rw [folded, List.foldl_concat, ← folded]
  rcases List.eq_nil_or_concat' (folded ls) with hnil | ⟨gs, g, hg⟩
  · rw [hnil]
    rfl
  · rw [hg, addFolded_concat]
    rfl

/-- What is known of the runtime's case mapping: a byte beyond ASCII has no lower case in
ASCII. -/
def KeepsHigh (u : CaseMap) : Prop :=
  ∀ s : Text, (∀ c ∈ s, c.toNat < 256) → s.all isAscii = false → (u.lower s).all isAscii = false

def isWsp (c : Char) : Bool := c = ' ' || c = '\t'

def PlainName (name : Text) : Prop := isToken (name.rdropWhile isWsp) = true

instance (name : Text) : Decidable (PlainName name) := inferInstanceAs (Decidable (_ = true))

theorem isAscii_of_fieldNameChar (h : isFieldNameChar c = true) : isAscii c = true := by
  simp only [isFieldNameChar, Bool.or_eq_true, Bool.and_eq_true, decide_eq_true_eq] at h
  simp only [isAscii, decide_eq_true_eq]
  omega

theorem not_white_of_fieldNameChar (h : isFieldNameChar c = true) :
    isWhiteSpace c = false := by
  simp only [isFieldNameChar, Bool.or_eq_true, Bool.and_eq_true, decide_eq_true_eq] at h
  simp only [isWhiteSpace, Bool.or_eq_false_iff, Bool.and_eq_false_iff, decide_eq_false_iff_not,
    beq_eq_false_iff_ne]
  omega

theorem isFieldNameChar_lower (h : isAscii c = true) :
    isFieldNameChar (asciiLower c) = isFieldNameChar c := by
  have htab : ∀ n < 128, isFieldNameChar (asciiLower (Char.ofNat n)) =
      isFieldNameChar (Char.ofNat n) := by decide
  have hc := htab c.toNat (of_decide_eq_true h)
  rwa [Char.ofNat_toNat] at hc

theorem ascii_of_isToken (h : isToken s = true) : s.all isAscii = true := by
  rw [isToken, Bool.and_eq_true] at h
  exact List.all_eq_true.mpr fun c hc => isAscii_of_fieldNameChar (List.all_eq_true.mp h.2 c hc)

theorem isToken_toLowerCase {u : CaseMap} (hu : KeepsHigh u)
    (hs : ∀ c ∈ s, c.toNat < 256) : isToken (toLowerCase u s) = isToken s := by
  rw [toLowerCase]
  split_ifs with hascii
  · have hall : ∀ c ∈ s, isFieldNameChar (asciiLower c) = isFieldNameChar c :=
      fun c hc => isFieldNameChar_lower (List.all_eq_true.mp hascii c hc)
    have heq : (s.map asciiLower).all isFieldNameChar = s.all isFieldNameChar := by
      rw [List.all_map, Bool.eq_iff_iff, List.all_eq_true, List.all_eq_true]
      exact forall₂_congr fun c hc => by rw [Function.comp_apply, hall c hc]
    rw [isToken, isToken, heq, List.isEmpty_map]
  · have hlow := hu s hs (Bool.not_eq_true _ ▸ hascii)
    have hno : ∀ t : Text, ¬ t.all isAscii = true → isToken t = false := fun t ht =>
      Bool.not_eq_true _ ▸ fun h => ht (ascii_of_isToken h)
    rw [hno s hascii, hno _ (by rw [hlow]; exact Bool.false_ne_true)]

theorem isFieldName_all {name : Text} (h : isFieldName name = true) :
    ∀ c ∈ name, isFieldNameChar c = true ∨ isWsp c = true := by
  cases name with
  | nil => nofun
  | cons d s =>
    rw [isFieldName, Bool.and_eq_true, List.all_eq_true] at h
    intro c hc
    rcases List.mem_cons.mp hc with rfl | hc
    · exact .inl h.1
    · have hcc := h.2 c hc
      simpa [isWsp, or_assoc] using hcc

theorem isFieldName_trim {name : Text} (h : isFieldName name = true) :
    trim name = name.rdropWhile isWsp := by
  have hstart : trimStart name = name := by
    cases name with
    | nil => rfl
    | cons d s =>
      rw [isFieldName, Bool.and_eq_true] at h
      rw [trimStart, List.dropWhile_cons_of_neg (by rw [not_white_of_fieldNameChar h.1]; simp)]
  have hsame : ∀ c ∈ name, isWhiteSpace c = isWsp c := by
    intro c hc
    rcases isFieldName_all h c hc with hf | hw
    · rw [not_white_of_fieldNameChar hf]
      refine (Bool.not_eq_true _ ▸ fun hw => ?_ : isWsp c = false).symm
      rw [isWsp, Bool.or_eq_true, decide_eq_true_eq, decide_eq_true_eq] at hw
      rcases hw with rfl | rfl <;> exact absurd hf (by decide)
    · rw [hw]
      rw [isWsp, Bool.or_eq_true, decide_eq_true_eq, decide_eq_true_eq] at hw
      rcases hw with rfl | rfl <;> rfl
  rw [trim, hstart]
  clear h hstart
  induction name using List.reverseRecOn with
  | nil => rfl
  | append_singleton s c ih =>
    rw [List.rdropWhile_concat, List.rdropWhile_concat, hsame c (by simp),
      ih fun d hd => hsame d (List.mem_append_left _ hd)]

theorem isFieldName_of_plainName {name : Text} (h : PlainName name) : isFieldName name = true := by
  have hsplit := List.rdropWhile_append_rtakeWhile (p := isWsp) (l := name)
  rw [PlainName, isToken, Bool.and_eq_true, List.all_eq_true] at h
  cases hcore : name.rdropWhile isWsp with
  | nil => simp [hcore] at h
  | cons d s =>
    rw [hcore] at h hsplit
    rw [← hsplit, List.cons_append, isFieldName, Bool.and_eq_true, List.all_eq_true]
    refine ⟨h.2 d (.head _), fun c hc => ?_⟩
    rcases List.mem_append.mp hc with hc | hc
    · rw [h.2 c (.tail _ hc)]
      rfl
    · have hw : isWsp c = true := List.mem_rtakeWhile_imp hc
      rw [Bool.or_assoc, ← isWsp.eq_def, hw, Bool.or_true]

theorem plainName_iff {name : Text} :
    PlainName name ↔ isToken (trim name) = true ∧ isFieldName name = true := by
  constructor
  · intro h
    have hname := isFieldName_of_plainName h
    rw [isFieldName_trim hname]
    exact ⟨h, hname⟩
  · rintro ⟨htok, hname⟩
    rwa [isFieldName_trim hname] at htok

def afterColon (s : Text) : Text := ((splitFirst ':' s).map Prod.snd).getD []

section

variable (u : CaseMap)

def recordField (r : HeaderRecord) : Option (Text × Text) :=
  r.name.map fun name => (name, afterColon r.unfolded)

/-- The name under which a field is looked up, and its value without the CRLFs of folding. -/
def authField (f : HeaderField) : Text × Text :=
  (fieldKey u f, (Pieces.split '\r' '\n' (afterColon f.raw)).flatten)

/-- What the parser and the authentication code make of a folded line. -/
def shown (g : Folded) : Option (Text × Text) :=
  (headerFieldName u g.unfolded).map fun name => (name, afterColon g.unfolded)

def authenticated (g : Folded) : Option (Text × Text) := (toField g.raw).map (authField u)

end

def Straight (g : Folded) : Prop :=
  match splitFirst ':' g.unfolded with
  | none => True
  | some (name, _) =>
    isToken (trim name) = true ∨ (':' ∈ g.first ∧ isFieldName name = true) →
      ':' ∈ g.first ∧ PlainName name

instance (g : Folded) : Decidable (Straight g) := by
  unfold Straight
  split <;> infer_instance

/-- The folded lines of a text that has one character for each byte. -/
structure Folded.Bytewise (g : Folded) : Prop where
  first : ∀ c ∈ g.first, c.toNat < 256 ∧ c ≠ '\r' ∧ c ≠ '\n'
  more : ∀ l ∈ g.more, ∀ c ∈ l, c.toNat < 256 ∧ c ≠ '\r' ∧ c ≠ '\n'

variable {u : CaseMap} {g : Folded}

theorem splitFirst_of_mem (h : c ∈ s) :
    ∃ x y, s = x ++ c :: y ∧ c ∉ x := by
  obtain ⟨x, y, hx, hs, -⟩ := List.exists_erase_eq h
  exact ⟨x, y, hs, hx⟩

theorem Folded.Bytewise.unfolded (hg : g.Bytewise) : ∀ c ∈ g.unfolded, c.toNat < 256 := by
  intro c hc
  rcases List.mem_append.mp hc with hc | hc
  · exact (hg.first c hc).1
  · obtain ⟨l, hl, hc⟩ := List.mem_flatten.mp hc
    exact (hg.more l hl c hc).1

theorem Folded.Bytewise.name (hg : g.Bytewise) {name value : Text}
    (h : splitFirst ':' g.unfolded = some (name, value)) : ∀ c ∈ trim name, c.toNat < 256 := by
  intro c hc
  refine hg.unfolded c ?_
  rw [(eq_of_splitFirst h).1]
  exact List.mem_append_left _ (mem_of_mem_trim hc)

theorem cut_first (hg : g.Bytewise) (h : ':' ∈ g.first) :
    ∃ name value raw, splitFirst ':' g.unfolded = some (name, value) ∧
      splitFirst ':' g.raw = some (name, raw) ∧ (Pieces.split '\r' '\n' raw).flatten = value := by
  obtain ⟨name, rest, hfirst, hname⟩ := splitFirst_of_mem h
  refine ⟨name, rest ++ g.more.flatten, Pieces.glue '\r' '\n' (rest :: g.more), ?_, ?_, ?_⟩
  · rw [Folded.unfolded, hfirst, List.append_assoc, List.cons_append]
    exact splitFirst_of_notMem hname _
  · have hraw : g.raw = name ++ ':' :: Pieces.glue '\r' '\n' (rest :: g.more) := by
      rw [Folded.raw, hfirst]
      cases g.more with
      | nil => rfl
      | cons l ls => simp [Pieces.glue]
    rw [hraw]
    exact splitFirst_of_notMem hname _
  · have hplain : ∀ p ∈ rest :: g.more, '\r' ∉ p := by
      intro p hp hcr
      rcases List.mem_cons.mp hp with rfl | hp
      · exact (hg.first '\r' (by rw [hfirst]; simp [hcr])).2.1 rfl
      · exact (hg.more p hp '\r' hcr).2.1 rfl
    rw [Pieces.split_glue (by decide) (by simp) hplain]
    rfl

theorem authenticated_of_notMem (h : ':' ∉ g.first) : authenticated u g = none := by
  have hfield : toField g.raw = none := by
    rw [toField]
    cases hs : splitFirst ':' g.raw with
    | none => rfl
    | some p =>
      obtain ⟨x, y⟩ := p
      obtain ⟨heq, hno⟩ := eq_of_splitFirst hs
      have hcr : '\r' ∈ x := by
        cases hm : g.more with
        | nil =>
          rw [Folded.raw, hm] at heq
          have heq : g.first = x ++ ':' :: y := heq
          exact absurd (by simp [heq]) h
        | cons l ls =>
          rw [Folded.raw, hm, Pieces.glue_cons (by simp)] at heq
          rcases List.append_eq_append_iff.mp heq with ⟨t, hp, ht⟩ | ⟨t, hp, ht⟩
          · cases t with
            | nil => simp at ht
            | cons d t =>
              obtain ⟨rfl, -⟩ := List.cons.inj ht
              rw [hp]
              simp
          · cases t with
            | nil => simp at ht
            | cons d t =>
              obtain ⟨rfl, -⟩ := List.cons.inj ht
              exact absurd (by simp [hp]) h
      have hname : ¬ isFieldName x = true := fun hname => by
        rcases isFieldName_all hname '\r' hcr with h | h <;> exact absurd h (by decide)
      dsimp only
      rw [if_neg hname]
  rw [authenticated, hfield]
  rfl

theorem shown_eq (hu : KeepsHigh u) (hg : g.Bytewise) {name value : Text}
    (h : splitFirst ':' g.unfolded = some (name, value)) :
    shown u g = if isToken (trim name) then some (toLowerCase u (trim name), value) else none := by
  have hvalue : afterColon g.unfolded = value := by
    rw [afterColon, h]
    rfl
  rw [shown, hvalue, headerFieldName, h]
  dsimp only
  rw [isToken_toLowerCase hu (hg.name h)]
  by_cases hnil : name = []
  · rw [if_pos hnil, hnil]
    rfl
  · rw [if_neg hnil]
    split_ifs <;> rfl

theorem shown_eq_none (h : splitFirst ':' g.unfolded = none) : shown u g = none := by
  rw [shown, headerFieldName, h]
  rfl

theorem authenticated_eq {name raw : Text} (h : splitFirst ':' g.raw = some (name, raw)) :
    authenticated u g = if isFieldName name then
      some (toLowerCase u (trim name), (Pieces.split '\r' '\n' raw).flatten) else none := by
  rw [authenticated, toField, h]
  dsimp only
  split_ifs
  · rw [Option.map_some, authField, fieldKey, afterColon, h]
    rfl
  · rfl

theorem shown_unique (hu : KeepsHigh u) (hg : g.Bytewise) {a b : Text × Text}
    (ha : shown u g = some a) (hb : authenticated u g = some b) : a = b := by
  by_cases hfirst : ':' ∈ g.first
  · obtain ⟨name, value, raw, hs, hr, hvalue⟩ := cut_first hg hfirst
    rw [shown_eq hu hg hs] at ha
    rw [authenticated_eq hr] at hb
    split_ifs at ha hb
    rw [← Option.some.inj ha, ← Option.some.inj hb, hvalue]
  · rw [authenticated_of_notMem hfirst] at hb
    cases hb

theorem shown_token {a : Text × Text}
    (ha : shown u g = some a) : isToken a.1 = true := by
  rw [shown, Option.map_eq_some_iff] at ha
  obtain ⟨name, hname, rfl⟩ := ha
  rw [headerFieldName] at hname
  split at hname
  · cases hname
  · dsimp only at hname
    split_ifs at hname with hnil htok
    rwa [← Option.some.inj hname]

theorem authenticated_noToken (hu : KeepsHigh u) (hg : g.Bytewise) {b : Text × Text}
    (hb : authenticated u g = some b) (hnone : shown u g = none) : isToken b.1 = false := by
  by_cases hfirst : ':' ∈ g.first
  · obtain ⟨name, value, raw, hs, hr, -⟩ := cut_first hg hfirst
    rw [shown_eq hu hg hs] at hnone
    rw [authenticated_eq hr] at hb
    split_ifs at hnone hb with htok
    rw [← Option.some.inj hb, isToken_toLowerCase hu (hg.name hs)]
    exact Bool.not_eq_true _ ▸ htok
  · rw [authenticated_of_notMem hfirst] at hb
    cases hb

theorem shown_eq_authenticated (hu : KeepsHigh u) (hg : g.Bytewise) :
    shown u g = authenticated u g ↔ Straight g := by
  by_cases hfirst : ':' ∈ g.first
  · obtain ⟨name, value, raw, hs, hr, hvalue⟩ := cut_first hg hfirst
    rw [shown_eq hu hg hs, authenticated_eq hr, hvalue, Straight, hs]
    dsimp only
    rw [plainName_iff]
    split_ifs with htok hname hname <;> simp [hfirst, htok, hname]
  · rw [authenticated_of_notMem hfirst, Straight]
    cases hs : splitFirst ':' g.unfolded with
    | none => exact iff_of_true (shown_eq_none hs) trivial
    | some p =>
      obtain ⟨name, value⟩ := p
      rw [shown_eq hu hg hs]
      dsimp only
      split_ifs with htok <;> simp [hfirst, htok]

theorem length_filterMap_le {α β : Type*} {f g : α → Option β} {xs : List α}
    (h : ∀ x ∈ xs, ∀ b, g x = some b → f x = some b) :
    (xs.filterMap g).length ≤ (xs.filterMap f).length := by
  induction xs with
  | nil => exact le_rfl
  | cons x xs ih =>
    have hrest := ih fun y hy => h y (.tail _ hy)
    cases hg : g x with
    | none =>
      rw [List.filterMap_cons_none hg]
      exact hrest.trans (List.Sublist.filterMap f (List.sublist_cons_self x xs)).length_le
    | some b =>
      rw [List.filterMap_cons_some hg, List.filterMap_cons_some (h x (.head _) b hg)]
      exact Nat.succ_le_succ hrest

/-- Two readers of one list agree on the whole when they agree on every element, if what only
the second reads is nothing the first could read. -/
theorem filterMap_eq_iff {α β : Type*} {f g : α → Option β} {xs : List α}
    (hboth : ∀ x ∈ xs, ∀ a b, f x = some a → g x = some b → a = b)
    (honly : ∀ x ∈ xs, ∀ b, g x = some b → f x = none → ∀ y ∈ xs, f y ≠ some b) :
    xs.filterMap f = xs.filterMap g ↔ ∀ x ∈ xs, f x = g x := by
  constructor
  · intro heq
    have hsub : ∀ x ∈ xs, ∀ b, g x = some b → f x = some b := by
      intro x hx b hb
      cases hf : f x with
      | none =>
        have hmem : b ∈ xs.filterMap f := by
          rw [heq]
          exact List.mem_filterMap.mpr ⟨x, hx, hb⟩
        obtain ⟨y, hy, hfy⟩ := List.mem_filterMap.mp hmem
        exact absurd hfy (honly x hx b hb hf y hy)
      | some a => rw [hboth x hx a b hf hb]
    clear hboth honly
    induction xs with
    | nil => nofun
    | cons x xs ih =>
      have hle := length_filterMap_le fun y hy => hsub y (.tail _ hy)
      have hx : f x = g x := by
        cases hg : g x with
        | some b => exact hsub x (.head _) b hg
        | none =>
          cases hf : f x with
          | none => rfl
          | some a =>
            rw [List.filterMap_cons_some hf, List.filterMap_cons_none hg] at heq
            have hlen := congrArg List.length heq
            rw [List.length_cons] at hlen
            omega
      have hrest : xs.filterMap f = xs.filterMap g := by
        rw [List.filterMap_cons, List.filterMap_cons, hx] at heq
        cases hg : g x with
        | none => rwa [hg] at heq
        | some b =>
          rw [hg] at heq
          exact (List.cons.inj heq).2
      exact List.forall_mem_cons.mpr ⟨hx, ih hrest fun y hy => hsub y (.tail _ hy)⟩
  · exact fun h => List.filterMap_congr h

section

variable (u : CaseMap)

theorem records_fields (hd : Text) :
    (splitHeaderRecords u hd).filterMap recordField = (folded (lines hd)).filterMap (shown u) := by
  have hrecords : (splitHeaderRecords u hd).filterMap recordField =
      (folded ((cutLines hd).map Prod.fst)).filterMap (shown u) := by
    have hparts : (splitHeaderRecords u hd).filterMap recordField =
        (((cutLines hd).foldl addPart []).map Prod.snd).filterMap fun unfolded =>
          (headerFieldName u unfolded).map fun name => (name, afterColon unfolded) := by
      rw [splitHeaderRecords, List.filterMap_map, List.filterMap_map]
      rfl
    rw [hparts, foldl_addPart, List.filterMap_map]
    rfl
  rcases lines_eq hd with h | h
  · rw [hrecords, h]
  · rw [hrecords, h, folded_blank, List.filterMap_append]
    exact (List.append_nil _).symm

theorem auth_fields (hd : Text) :
    (parseHeaderFields (normalizeLineEndings hd)).map (authField u) =
      (folded (lines hd)).filterMap (authenticated u) := by
  have hall : parseHeaderFields (normalizeLineEndings hd) =
      ((lines hd).foldl addLine []).filterMap toField := by
    rw [parseHeaderFields, split_normalize]
    split_ifs with hnil
    · rw [← split_normalize, hnil]
      rfl
    · rfl
  rw [hall, foldl_addLine, List.filterMap_map, List.map_filterMap]
  rfl

end

theorem bytewise_of_mem {hd : Text} (hbytes : ∀ c ∈ hd, c.toNat < 256)
    (hg : g ∈ folded (lines hd)) : g.Bytewise := by
  have hline : ∀ l, l ∈ g.first :: g.more → ∀ c ∈ l, c.toNat < 256 ∧ c ≠ '\r' ∧ c ≠ '\n' := by
    intro l hl c hc
    have hmem : l ∈ lines hd := by
      rw [← folded_flatMap (lines hd)]
      exact List.mem_flatMap.mpr ⟨g, hg, hl⟩
    exact (mem_of_mem_lines hmem c hc).imp_left (hbytes c)
  exact ⟨hline _ (.head _), fun l hl => hline l (.tail _ hl)⟩

theorem fields_iff (hu : KeepsHigh u) {hd : Text} (hbytes : ∀ c ∈ hd, c.toNat < 256) :
    (splitHeaderRecords u hd).filterMap recordField =
        (parseHeaderFields (normalizeLineEndings hd)).map (authField u) ↔
      ∀ g ∈ folded (lines hd), Straight g := by
  rw [records_fields, auth_fields, filterMap_eq_iff]
  · exact forall₂_congr fun g hg => shown_eq_authenticated hu (bytewise_of_mem hbytes hg)
  · exact fun g hg a b => shown_unique hu (bytewise_of_mem hbytes hg)
  · intro g hg b hb hnone h _ hh
    have hno := authenticated_noToken hu (bytewise_of_mem hbytes hg) hb hnone
    rw [shown_token hh] at hno
    cases hno

end Ionosphere.Mime
