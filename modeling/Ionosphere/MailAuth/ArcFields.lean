import Ionosphere.MailAuth.ArcSound
import Ionosphere.MailAuth.Signature

/-! The fields `arcSeal` writes, as `arcVerify` reads them: the tags come back, the instance is found,
and with `b=` blanked the canonical field is that of the unsigned one. -/
namespace Ionosphere.MailAuth

open Ionosphere.Js Ionosphere.Core Ionosphere.Lib

/-- `value.replace(/\r\n/g, "")`. -/
def joined (value : Text) : Text := (Pieces.split '\r' '\n' value).flatten

section

variable {x y tail : Text}

theorem joined_append (h : '\r' ∉ x) (y : Text) : joined (x ++ y) = x ++ joined y := by
  induction x with
  | nil => rfl
  | cons a x ih =>
    rw [List.mem_cons, not_or] at h
    have hextend : ∀ ps : List Text, (Pieces.extend a ps).flatten = a :: ps.flatten := by
      intro ps
      cases ps <;> rfl
    have hsplit : ∀ s, Pieces.split '\r' '\n' (a :: s) =
        Pieces.extend a (Pieces.split '\r' '\n' s) := by
      intro s
      cases s with
      | nil => rfl
      | cons b s =>
        rw [Pieces.split, if_neg fun hcond => h.1 hcond.1.symm]
    have hcons := congrArg List.flatten (hsplit (x ++ y))
    rw [hextend] at hcons
    exact hcons.trans (congrArg (List.cons a) (ih h.2))

theorem joined_fold (h : Solid tail) (n : Nat) : ∃ (chunk : Text) (chunks : List Text),
    joined (foldSignatureTail n tail) = chunk ++ (chunks.map fun c => '\t' :: c).flatten ∧
      chunk ++ chunks.flatten = tail := by
  obtain ⟨chunk, chunks, heq, hflat⟩ := foldFrom_eq tail.length n (Nat.le_refl tail.length)
  refine ⟨chunk, chunks, ?_, hflat⟩
  have hchars : ∀ ch ∈ chunk ++ chunks.flatten, ch ≠ '\r' := by
    rw [hflat]
    rintro ch hch rfl
    exact absurd (h _ hch).1 (by decide)
  have hno : ∀ l ∈ chunk :: chunks.map (fun c => '\t' :: c), '\r' ∉ l := by
    refine List.forall_mem_cons.mpr ⟨fun hmem => hchars _ (List.mem_append_left _ hmem) rfl, ?_⟩
    intro l hl hmem
    obtain ⟨l', hl', rfl⟩ := List.mem_map.mp hl
    have hmem' := (List.mem_cons.mp hmem).resolve_left (by decide)
    exact hchars _ (List.mem_append_right _ (List.mem_flatten.mpr ⟨l', hl', hmem'⟩)) rfl
  rw [joined, foldSignatureTail, heq, Pieces.split_glue (by decide) (List.cons_ne_nil _ _) hno]
  rfl

theorem stripWhite_append (x y : Text) : stripWhite (x ++ y) = stripWhite x ++ stripWhite y :=
  List.filter_append x y

theorem Solid.stripWhite (h : Solid x) : stripWhite x = x :=
  List.filter_eq_self.mpr fun c hc => by rw [h.white c hc]; rfl

theorem stripWhite_joined_fold (h : Solid tail) (n : Nat) :
    stripWhite (joined (foldSignatureTail n tail)) = tail := by
  obtain ⟨chunk, chunks, heq, hflat⟩ := joined_fold h n
  have htabs : ∀ ls : List Text, MailAuth.stripWhite (ls.map fun c => '\t' :: c).flatten =
      MailAuth.stripWhite ls.flatten := by
    intro ls
    induction ls with
    | nil => rfl
    | cons l ls ih =>
      rw [List.map_cons, List.flatten_cons, List.flatten_cons, stripWhite_append,
        stripWhite_append, ih]
      rfl
  rw [heq, stripWhite_append, htabs, ← stripWhite_append, hflat, h.stripWhite]

theorem joined_fold_chars (h : Solid tail) (hsemi : ';' ∉ tail) (n : Nat) :
    ∀ ch ∈ joined (foldSignatureTail n tail), ch ≠ ';' ∧ ch ≠ '\r' ∧ ch ≠ '\n' := by
  obtain ⟨chunk, chunks, heq, hflat⟩ := joined_fold h n
  have htail : ∀ ch ∈ chunk ++ chunks.flatten, ch ≠ ';' ∧ ch ≠ '\r' ∧ ch ≠ '\n' := by
    rw [hflat]
    intro ch hch
    refine ⟨fun heq => hsemi (heq ▸ hch), ?_, ?_⟩ <;> rintro rfl <;>
      exact absurd (h _ hch).1 (by decide)
  rw [heq]
  refine List.forall_mem_append.mpr ⟨fun ch hch => htail ch (List.mem_append_left _ hch), ?_⟩
  intro ch hch
  obtain ⟨l, hl, hmem⟩ := List.mem_flatten.mp hch
  obtain ⟨l', hl', rfl⟩ := List.mem_map.mp hl
  rcases List.mem_cons.mp hmem with rfl | hmem
  · decide
  · exact htail ch (List.mem_append_right _ (List.mem_flatten.mpr ⟨l', hl', hmem⟩))

theorem stripWhite_white {s : Text} (h : ∀ c ∈ s, isWhiteSpace c) : stripWhite s = [] :=
  List.filter_eq_nil_iff.mpr fun c hc => by simp [h c hc]

theorem stripWhite_trim (s : Text) : stripWhite (trim s) = stripWhite s := by
  have hstart : stripWhite (trimStart s) = stripWhite s := by
    conv_rhs => rw [← List.takeWhile_append_dropWhile (p := isWhiteSpace) (l := s)]
    rw [stripWhite_append, stripWhite_white fun c hc => List.mem_takeWhile_imp hc]
    rfl
  have hend : ∀ t : Text, stripWhite (t.rdropWhile isWhiteSpace) = stripWhite t := by
    intro t
    induction t using List.reverseRecOn with
    | nil => rfl
    | append_singleton t c ih =>
      by_cases hc : isWhiteSpace c
      · rw [List.rdropWhile_concat_pos _ _ _ hc, ih, stripWhite_append,
          stripWhite_white (List.forall_mem_singleton.mpr hc), List.append_nil]
      · rw [List.rdropWhile_concat_neg _ _ _ hc]
  rw [trim, hend, hstart]

theorem trim_append_end {h : Text} {d : Char} (hd : isWhiteSpace d = false) (y : Text) :
    (h ++ d :: y).rdropWhile isWhiteSpace = h ++ d :: y.rdropWhile isWhiteSpace := by
  induction y using List.reverseRecOn with
  | nil => exact List.rdropWhile_concat_neg _ _ _ (by simp [hd])
  | append_singleton y c ih =>
    rw [← List.cons_append, ← List.append_assoc]
    by_cases hc : isWhiteSpace c
    · rw [List.rdropWhile_concat_pos _ _ _ hc, ih, List.rdropWhile_concat_pos _ _ _ hc]
    · rw [List.rdropWhile_concat_neg _ _ _ hc, List.rdropWhile_concat_neg _ _ _ hc,
        List.append_assoc]
      rfl

end

/-- No `b` is followed by `=`; the flag says that a `b` stands before. -/
def NoB : Bool → Text → Prop
  | _, [] => True
  | afterB, c :: s => ¬ (afterB ∧ c = '=') ∧ NoB (c = 'b') s

section

variable {x y : Text} {b : Bool}

theorem noB_append {c : Char} (hc : c ≠ '=') :
    NoB b (x ++ c :: y) ↔ NoB b x ∧ NoB (c = 'b') y := by
  induction x generalizing b with
  | nil =>
    rw [List.nil_append, NoB, NoB]
    exact and_congr_left fun _ => iff_of_true (fun h => hc h.2) trivial
  | cons d x ih => rw [List.cons_append, NoB, NoB, ih, and_assoc]

theorem noB_of_notMem (h : '=' ∉ x) : NoB b x := by
  induction x generalizing b with
  | nil => trivial
  | cons c x ih =>
    rw [List.mem_cons, not_or] at h
    exact ⟨fun hc => h.1 hc.2.symm, ih h.2⟩

/-- `b=` is only found at the end, and its value goes. -/
theorem blankFrom_append {afterWord : Bool} {w z : Text} (hx : NoB b (x ++ [' ']))
    (hw : ∀ c ∈ w, c ≠ ';' ∧ c ≠ '\r' ∧ c ≠ '\n') :
    blankFrom afterWord (x ++ ' ' :: 'b' :: '=' :: (w ++ '\r' :: z)) =
      x ++ ' ' :: 'b' :: '=' :: '\r' :: z := by
  induction x generalizing b afterWord with
  | nil =>
    have hspace : isWordChar ' ' = false := by decide
    have hdrop : (w ++ '\r' :: z).dropWhile (fun c => c ≠ ';' && c ≠ '\r' && c ≠ '\n') =
        '\r' :: z := by
      rw [List.dropWhile_append_of_pos fun c hc => by simp [hw c hc]]
      rfl
    simpa [blankFrom, hspace] using hdrop
  | cons c x ih =>
    rw [List.cons_append, NoB] at hx
    have hstep : ¬ (!afterWord && c = 'b' &&
        (x ++ ' ' :: 'b' :: '=' :: (w ++ '\r' :: z)).head? = some '=') = true := by
      rw [Bool.and_eq_true, Bool.and_eq_true, decide_eq_true_eq, decide_eq_true_eq]
      rintro ⟨⟨-, rfl⟩, hhead⟩
      cases x with
      | nil => exact absurd (Option.some.inj hhead) (by decide)
      | cons d x =>
        rw [List.cons_append, NoB] at hx
        exact hx.2.1 ⟨rfl, Option.some.inj hhead⟩
    rw [List.cons_append, blankFrom, if_neg hstep, ih hx.2]
    rfl

/-- The digit before the padding has two or four zero bits at its end, and `b` has not. -/
theorem noB_base64 (bytes : Bytes) : NoB b (base64Encode bytes) := by
  have hpad : ∀ n, base64Char n ≠ '=' := by
    intro n
    by_cases hn : n < 64
    · revert n
      decide
    · have hlarge : base64Char n = '/' := by
        rw [base64Char, if_neg (by omega), if_neg (by omega), if_neg (by omega), if_neg (by omega)]
      rw [hlarge]
      decide
  have hskip : ∀ n (b : Bool) s, NoB (base64Char n = 'b') s → NoB b (base64Char n :: s) :=
    fun n b s hs => ⟨fun h => hpad n h.2, hs⟩
  have hend : ∀ b s, b = false → NoB false s → NoB b ('=' :: s) := by
    rintro b s rfl hs
    exact ⟨fun h => Bool.false_ne_true h.1, hs⟩
  have htwo : ∀ m < 4, base64Char (m * 16) ≠ 'b' := by decide
  have hfour : ∀ m < 16, base64Char (m * 4) ≠ 'b' := by decide
  induction bytes using base64Encode.induct generalizing b with
  | case1 => trivial
  | case2 a =>
    refine hskip _ _ _ (hskip _ _ _ (hend _ _ ?_ (hend _ _ rfl trivial)))
    exact decide_eq_false (htwo _ (Nat.mod_lt _ (by decide)))
  | case3 a d =>
    refine hskip _ _ _ (hskip _ _ _ (hskip _ _ _ (hend _ _ ?_ trivial)))
    exact decide_eq_false (hfour _ (Nat.mod_lt _ (by decide)))
  | case4 a d e rest ih =>
    exact hskip _ _ _ (hskip _ _ _ (hskip _ _ _ (hskip _ _ _ ih)))

end

/-- A field with tags, and `value` after the last one, `b=`. -/
def tagRaw (name : Text) (front : List (Text × Text)) (value : Text) : Text :=
  name ++ ':' :: tagText (front ++ [(['b'], value)])

section

variable {u : CaseMap} {name value : Text} {front ps : List (Text × Text)}

theorem tagField_eq (kind : ArcKind) (front : List (Text × Text)) :
    tagField kind (front ++ [("b".toList, [])]) = tagRaw kind.name front [] := by
  have hb : "b".toList = ['b'] := by decide
  have hcolon : ": ".toList = [':', ' '] := by decide
  rw [tagField, tagRaw, hb, hcolon, ← join_segments (by simp)]
  simp

theorem tagRaw_append : tagRaw name front value = tagRaw name front [] ++ value := by
  rw [tagRaw, tagRaw, tagText_concat, List.append_assoc]
  rfl

theorem tagText_last (hne : front ≠ []) :
    tagText (front ++ [(['b'], value)]) = tagText front ++ ';' :: ' ' :: 'b' :: '=' :: value := by
  induction front with
  | nil => exact absurd rfl hne
  | cons p front ih =>
    by_cases hnil : front = []
    · simp [hnil, tagText, segmentText]
    · rw [List.cons_append, tagText_cons (by simp), ih hnil, tagText_cons hnil, List.append_assoc]
      rfl

theorem splitFirst_tagRaw (hname : ':' ∉ name) :
    splitFirst ':' (tagRaw name front value) = some (name, tagText (front ++ [(['b'], value)])) :=
  splitFirst_of_notMem hname _

theorem fieldValue_tagRaw (hname : ':' ∉ name) (n : Text) :
    fieldValue ⟨n, tagRaw name front value⟩ = tagText (front ++ [(['b'], value)]) := by
  rw [fieldValue, splitFirst_tagRaw hname]
  rfl

/-- What the signer of a chain writes for a tag. -/
structure IsArcTag (p : Text × Text) : Prop extends IsFrontTag p where
  noB : NoB false (p.1 ++ '=' :: p.2)

theorem printable_tagText (h : ∀ p ∈ front, IsArcTag p) :
    ∀ ch ∈ tagText (front ++ [(['b'], [])]), 32 ≤ ch.toNat ∧ ch.toNat ≤ 126 := by
  intro ch hch
  have hletters : ∀ d ∈ [';', ' ', '=', 'b'], 32 ≤ d.toNat ∧ d.toNat ≤ 126 := by decide
  rcases mem_tagText hch with hsep | ⟨p, hp, hmem⟩
  · exact hletters ch (List.mem_append_left ['b'] hsep)
  rcases List.mem_append.mp hp with hfront | hlast
  · have hp' := h p hfront
    rcases hmem with hname | hvalue
    · have hrange := hp'.name.2 ch hname
      omega
    · have hrange := hp'.solid ch hvalue
      omega
  · rw [List.mem_singleton.mp hlast] at hmem
    have hb : ch = 'b' := by simpa using hmem
    exact hletters ch (by simp [hb])

theorem joined_tagText (h : ∀ p ∈ front, IsArcTag p) :
    joined (tagText (front ++ [(['b'], value)])) = tagText (front ++ [(['b'], joined value)]) := by
  rw [tagText_concat front ['b'] value, tagText_concat front ['b'] (joined value)]
  refine joined_append (fun hmem => ?_) value
  exact absurd (printable_tagText h _ hmem).1 (by decide)

theorem collapse_solid {c : Char} {s t : Text} {b : Bool} (h : Solid (c :: s)) :
    collapseFrom b (c :: s ++ t) = c :: s ++ collapseFrom false t := by
  induction s generalizing c b with
  | nil =>
    have hc := h c (.head _)
    have hne : ¬ (c = ' ' || c = '\t') = true := by
      simp only [Bool.or_eq_true, decide_eq_true_eq]
      rintro (rfl | rfl) <;> exact absurd hc.1 (by decide)
    rw [List.cons_append, collapseFrom, if_neg hne]
    rfl
  | cons d s ih =>
    obtain ⟨hc, hs⟩ := List.forall_mem_cons.mp h
    have hne : ¬ (c = ' ' || c = '\t') = true := by
      simp only [Bool.or_eq_true, decide_eq_true_eq]
      rintro (rfl | rfl) <;> exact absurd hc.1 (by decide)
    rw [List.cons_append, collapseFrom, if_neg hne, ih hs]
    rfl

theorem collapse_tagText (h : ∀ p ∈ front, IsArcTag p) (w : Text) :
    collapseFrom false (tagText (front ++ [(['b'], w)])) =
      tagText (front ++ [(['b'], collapseFrom false w)]) := by
  have hspace : ∀ t, collapseFrom false (' ' :: t) = ' ' :: collapseFrom true t := fun _ => rfl
  induction front with
  | nil =>
    have hb : Solid ['b', '='] := show ∀ ch ∈ ['b', '='], 33 ≤ ch.toNat ∧ ch.toNat ≤ 126 by decide
    have hone : ∀ v, tagText [(['b'], v)] = ' ' :: (['b', '='] ++ v) := by simp [tagText, segmentText]
    rw [List.nil_append, List.nil_append, hone, hone, hspace, collapse_solid hb]
  | cons p front ih =>
    obtain ⟨hp, hfront⟩ := List.forall_mem_cons.mp h
    obtain ⟨c, name, hname⟩ := List.exists_cons_of_ne_nil hp.name.1
    have hsolid : Solid (c :: (name ++ '=' :: p.2 ++ [';'])) := by
      rw [← List.cons_append, ← List.cons_append, ← hname]
      refine List.forall_mem_append.mpr ⟨List.forall_mem_append.mpr ⟨fun ch hch => ?_,
        List.forall_mem_cons.mpr ⟨by decide, hp.solid⟩⟩, by decide⟩
      have hrange := hp.name.2 ch hch
      omega
    have hsegment : ∀ t, segmentText p ++ ';' :: t = ' ' :: (c :: (name ++ '=' :: p.2 ++ [';']) ++ t) := by
      intro t
      simp [segmentText, hname]
    rw [List.cons_append, tagText_cons (by simp), hsegment, hspace, collapse_solid hsolid,
      ih hfront, ← hsegment, List.cons_append, tagText_cons (by simp)]

theorem noB_tagText (h : ∀ p ∈ front, IsArcTag p) : NoB false (tagText front) := by
  induction front with
  | nil => trivial
  | cons p front ih =>
    obtain ⟨hp, hfront⟩ := List.forall_mem_cons.mp h
    have hsegment : NoB false (segmentText p) :=
      ⟨fun hc => Bool.false_ne_true hc.1, by simpa using hp.noB⟩
    by_cases hnil : front = []
    · simpa [hnil, tagText] using hsegment
    · rw [tagText_cons hnil]
      exact (noB_append (by decide)).mpr ⟨hsegment, by simpa using ih hfront⟩

/-- A written field in canonical form: only the value of `b=` is changed. -/
theorem canon_tagRaw (hname : ':' ∉ name) (hne : front ≠ []) (h : ∀ p ∈ front, IsArcTag p)
    (n : Text) : canonHeaderField u ⟨n, tagRaw name front value⟩ .relaxed =
      toLowerCase u (trim name) ++ ':' :: ((tagText front).tail ++ [';']) ++ ' ' :: 'b' :: '=' ::
        ((collapseFrom false (joined value)).rdropWhile isWhiteSpace ++ crlf) := by
  obtain ⟨p, rest, rfl⟩ := List.exists_cons_of_ne_nil hne
  have hp := h p (.head _)
  obtain ⟨c, s, hcs⟩ := List.exists_cons_of_ne_nil hp.name.1
  have hc : isWhiteSpace c = false := by
    have hsolid : Solid [c] := by
      refine List.forall_mem_singleton.mpr ?_
      have hrange := hp.name.2 c (by simp [hcs])
      omega
    exact hsolid.white c (.head _)
  obtain ⟨t, ht⟩ : ∃ t, tagText (p :: rest) = ' ' :: c :: t := by
    by_cases hnil : rest = []
    · exact ⟨s ++ '=' :: p.2, by simp [hnil, tagText, segmentText, hcs]⟩
    · rw [tagText_cons hnil]
      exact ⟨s ++ '=' :: p.2 ++ ';' :: tagText rest, by simp [segmentText, hcs]⟩
  have hflat : (Pieces.split '\r' '\n' (tagText (p :: rest ++ [(['b'], value)]))).flatten =
      tagText (p :: rest ++ [(['b'], joined value)]) := joined_tagText h
  rw [canonHeaderField, splitFirst_tagRaw hname]
  dsimp only [Option.getD_some]
  rw [hflat, collapse_tagText h, tagText_last (List.cons_ne_nil _ _), ht]
  generalize (collapseFrom false (joined value)) = w
  have htrim : trim (' ' :: c :: t ++ ';' :: ' ' :: 'b' :: '=' :: w) =
      c :: t ++ [';', ' ', 'b'] ++ '=' :: w.rdropWhile isWhiteSpace := by
    have hmove : c :: t ++ ';' :: ' ' :: 'b' :: '=' :: w = c :: t ++ [';', ' ', 'b'] ++ '=' :: w := by
      simp
    have hhead : trimStart (c :: t ++ [';', ' ', 'b'] ++ '=' :: w) =
        c :: t ++ [';', ' ', 'b'] ++ '=' :: w := by
      rw [List.cons_append, List.cons_append, trimStart,
        List.dropWhile_cons_of_neg (by simp [hc])]
    rw [List.cons_append, trim_cons_white (by decide), hmove, trim, hhead,
      trim_append_end (by decide)]
  rw [htrim]
  simp

def ArcKind.key : ArcKind → Text
  | .aar => "arc-authentication-results".toList
  | .ams => "arc-message-signature".toList
  | .seal => "arc-seal".toList

theorem lower_name (kind : ArcKind) : toLowerCase u (trim kind.name) = kind.key := by
  have hascii : ∀ kind : ArcKind, (trim kind.name).all isAscii = true ∧
      (trim kind.name).map asciiLower = kind.key := by
    intro kind
    cases kind <;> exact ⟨by decide, by decide⟩
  rw [toLowerCase, if_pos (hascii kind).1, (hascii kind).2]

theorem arcKind_name (kind : ArcKind) (raw : Text) : arcKind u ⟨kind.name, raw⟩ = some kind := by
  have hkey : fieldKey u ⟨kind.name, raw⟩ = kind.key := lower_name kind
  rw [arcKind, hkey]
  cases kind <;> rfl

theorem name_chars (kind : ArcKind) : ':' ∉ kind.name ∧ isFieldName kind.name ∧ '=' ∉ kind.key := by
  cases kind <;> decide

theorem toField_name (kind : ArcKind) (s : Text) :
    toField (kind.name ++ ':' :: s) = some ⟨kind.name, kind.name ++ ':' :: s⟩ := by
  rw [toField, splitFirst_of_notMem (name_chars kind).1]
  exact if_pos (name_chars kind).2.1

/-- With its `b=` blanked, a signed field is the unsigned one. -/
theorem blankB_tagRaw (kind : ArcKind) (hne : front ≠ []) (h : ∀ p ∈ front, IsArcTag p)
    (hvalue : ∀ c ∈ joined value, c ≠ ';' ∧ c ≠ '\r' ∧ c ≠ '\n') (n : Text) :
    blankB (canonHeaderField u ⟨n, tagRaw kind.name front value⟩ .relaxed) =
      canonHeaderField u ⟨n, tagRaw kind.name front []⟩ .relaxed := by
  obtain ⟨hcolon, -, hequals⟩ := name_chars kind
  have hcollapse : ∀ (b : Bool) (w : Text), (∀ c ∈ w, c ≠ ';' ∧ c ≠ '\r' ∧ c ≠ '\n') →
      ∀ c ∈ collapseFrom b w, c ≠ ';' ∧ c ≠ '\r' ∧ c ≠ '\n' := by
    intro b w hw
    induction w generalizing b with
    | nil => exact List.forall_mem_nil _
    | cons d w ih =>
      obtain ⟨hd, hw⟩ := List.forall_mem_cons.mp hw
      rw [collapseFrom]
      split_ifs
      · exact ih true hw
      · exact List.forall_mem_cons.mpr ⟨by decide, ih true hw⟩
      · exact List.forall_mem_cons.mpr ⟨hd, ih false hw⟩
  have hchars : ∀ c ∈ (collapseFrom false (joined value)).rdropWhile isWhiteSpace,
      c ≠ ';' ∧ c ≠ '\r' ∧ c ≠ '\n' := fun c hc =>
    hcollapse false _ hvalue c ((List.rdropWhile_prefix _ _).mem hc)
  have hno : NoB false (kind.key ++ ':' :: ((tagText front).tail ++ [';']) ++ [' ']) := by
    refine (noB_append (by decide)).mpr ⟨?_, trivial⟩
    refine (noB_append (by decide)).mpr ⟨noB_of_notMem hequals, ?_⟩
    refine (noB_append (by decide)).mpr ⟨?_, trivial⟩
    have htags := noB_tagText h
    cases htext : tagText front with
    | nil => trivial
    | cons c s =>
      obtain ⟨p, rest, rfl⟩ := List.exists_cons_of_ne_nil hne
      have hspace : c = ' ' := by
        by_cases hnil : rest = []
        · rw [hnil, tagText] at htext
          exact (List.cons.inj htext).1.symm
        · rw [tagText_cons hnil] at htext
          exact (List.cons.inj htext).1.symm
      rw [htext, hspace] at htags
      exact htags.2
  have hempty : (collapseFrom false (joined [])).rdropWhile isWhiteSpace = [] := rfl
  rw [canon_tagRaw hcolon hne h, canon_tagRaw hcolon hne h, lower_name, hempty, blankB, crlf]
  exact blankFrom_append hno hchars

theorem parseTags_tagRaw (kind : ArcKind) (h : ∀ p ∈ front, IsArcTag p) (hvalue : ';' ∉ joined value)
    (n : Text) : parseTags u ⟨n, tagRaw kind.name front value⟩ =
      (front ++ [(['b'], joined value)]).foldl (fun m p => Assoc.set m p.1 (trim p.2)) [] := by
  have hwritten : ∀ p ∈ front ++ [(['b'], joined value)], Written p := by
    refine List.forall_mem_append.mpr ⟨fun p hp => (h p hp).toWritten,
      List.forall_mem_singleton.mpr ⟨?_, hvalue⟩⟩
    exact show IsTagName ['b'] by decide
  have hjoined : (Pieces.split '\r' '\n' (tagText (front ++ [(['b'], value)]))).flatten =
      tagText (front ++ [(['b'], joined value)]) := joined_tagText h
  rw [parseTags, fieldValue_tagRaw (name_chars kind).1, hjoined, splitOn_tagText (by simp) hwritten,
    List.foldl_map]
  refine List.foldl_ext _ _ _ fun m p hp => ?_
  have hp' := hwritten p hp
  have hequals : '=' ∉ ' ' :: p.1 := by
    rw [List.mem_cons, not_or]
    exact ⟨by decide, notMem_tagName hp'.name (by decide)⟩
  rw [segmentText, splitFirst_of_notMem hequals]
  dsimp only
  rw [trim_cons_white (by decide), trim_tagName hp'.name, toLowerCase_tagName hp'.name]

theorem get_foldl_set (hnodup : (ps.map Prod.fst).Nodup) {p : Text × Text} (hp : p ∈ ps) :
    Assoc.get (ps.foldl (fun m p => Assoc.set m p.1 (trim p.2)) []) p.1 = some (trim p.2) := by
  induction ps using List.reverseRecOn with
  | nil => cases hp
  | append_singleton ps q ih =>
    rw [List.map_append, List.nodup_append'] at hnodup
    rw [List.foldl_concat, Assoc.get_set]
    rcases List.mem_append.mp hp with hold | hlast
    · have hne : q.1 ≠ p.1 := fun heq =>
        hnodup.2.2 (List.mem_map_of_mem hold) (by simp [heq])
      rw [if_neg hne, ih hnodup.1 hold]
    · rw [List.mem_singleton.mp hlast, if_pos rfl]

theorem getTag_tagRaw (kind : ArcKind) (h : ∀ p ∈ front, IsArcTag p) (hvalue : ';' ∉ joined value)
    (hnodup : ((front ++ [(['b'], joined value)]).map Prod.fst).Nodup) (n : Text) {name : String}
    {v : Text} (hp : (name.toList, v) ∈ front ++ [(['b'], joined value)]) :
    getTag (parseTags u ⟨n, tagRaw kind.name front value⟩) name = trim v := by
  rw [getTag, parseTags_tagRaw kind h hvalue, get_foldl_set hnodup hp]
  rfl

theorem noB_tag {name v : Text} (hequals : '=' ∉ name) (hlast : name.getLast? ≠ some 'b')
    (hv : NoB false v) : NoB false (name ++ '=' :: v) := by
  suffices hgen : ∀ b : Bool, (name = [] → b = false) → NoB b (name ++ '=' :: v) from
    hgen false fun _ => rfl
  induction name with
  | nil =>
    intro b hb
    exact ⟨fun h => Bool.false_ne_true (hb rfl ▸ h.1), hv⟩
  | cons c name ih =>
    intro b _
    rw [List.mem_cons, not_or] at hequals
    refine ⟨fun h => hequals.1 h.2.symm, ?_⟩
    by_cases hnil : name = []
    · rw [hnil] at hlast ⊢
      refine ⟨fun h => hlast ?_, hv⟩
      rw [List.getLast?_singleton, of_decide_eq_true h.1]
    · rw [List.getLast?_cons_of_ne_nil hnil] at hlast
      exact ih hequals.2 hlast _ fun h => absurd h hnil

theorem instanceOf_first {n : Nat} (hn : n ≤ 2 ^ 53) {name : Text} (hname : ':' ∉ name)
    (rest fieldName : Text) :
    instanceOf ⟨fieldName, name ++ ':' :: ' ' :: 'i' :: '=' :: (natText n ++ ';' :: rest)⟩ =
      some (some n) := by
  have hdigits := natText_digits n
  have hdigit : ∀ c ∈ natText n, isDigit c := by
    intro c hc
    simpa [isDigit] using hdigits c hc
  have hsemi : ';' ∉ ' ' :: 'i' :: '=' :: natText n := by
    simp only [List.mem_cons, not_or]
    exact ⟨by decide, by decide, by decide, fun hmem => absurd (hdigits _ hmem).2 (by decide)⟩
  have hsplit : (' ' :: 'i' :: '=' :: (natText n ++ ';' :: rest)).splitOn ';' =
      (' ' :: 'i' :: '=' :: natText n) :: rest.splitOn ';' :=
    List.splitOn_append_cons_self_of_not_mem hsemi rest
  have hvalue : fieldValue ⟨fieldName, name ++ ':' :: ' ' :: 'i' :: '=' :: (natText n ++ ';' :: rest)⟩ =
      ' ' :: 'i' :: '=' :: (natText n ++ ';' :: rest) := by
    rw [fieldValue, splitFirst_of_notMem hname]
    rfl
  have hstart : trimStart (' ' :: 'i' :: '=' :: natText n) = 'i' :: '=' :: natText n := rfl
  have hpick : pickRun isDigit (trimStart (natText n)) = some (natText n) := by
    have hsolid : Solid (natText n) := by
      intro c hc
      have hrange := hdigits c hc
      omega
    have htrim : trimStart (natText n) = natText n := by
      cases hcase : natText n with
      | nil => rfl
      | cons c s => exact List.dropWhile_cons_of_neg (by simp [hsolid.white c (by simp [hcase])])
    rw [htrim, pickRun, List.takeWhile_eq_self_iff.mpr hdigit, if_neg (natText_ne_nil n)]
  have hmatch : matchTag 'i' (pickRun isDigit) (' ' :: 'i' :: '=' :: (natText n ++ ';' :: rest)) =
      some (natText n) := by
    rw [matchTag, hsplit, List.findSome?_cons, hstart]
    simp [hpick]
  rw [instanceOf, hvalue, hmatch, Option.map_some,
    decimalNumber_of_le (by rwa [digitsValue_natText]), digitsValue_natText]

end

end Ionosphere.MailAuth
