import Ionosphere.Js.Digits
import Ionosphere.MailAuth.Prepend
import Ionosphere.MailAuth.Verify

/-! The field `dkimSign` writes, as `dkimVerify` reads it: the fold of `b=` is undone, the tags come
back, and with an empty `b=` the field is again the one that was signed. -/
namespace Ionosphere.MailAuth

open Ionosphere.Js Ionosphere.Core Ionosphere.Lib

/-- A tag value that stands as it is: printable, without white space and semicolon. -/
def IsTagSafe (s : Text) : Prop := s ≠ [] ∧ ∀ c ∈ s, 33 ≤ c.toNat ∧ c.toNat ≤ 126 ∧ c ≠ ';'

/-- A name that can stand in `h=`; the signature does not sign itself. -/
def IsHeaderName (n : Text) : Prop :=
  (∀ c ∈ n, c ≠ ';' ∧ c ≠ '=' ∧ c ≠ ':' ∧ isWhiteSpace c = false) ∧ n ≠ "dkim-signature".toList

instance (s : Text) : Decidable (IsTagSafe s) := inferInstanceAs (Decidable (_ ∧ _))

instance (n : Text) : Decidable (IsHeaderName n) := inferInstanceAs (Decidable (_ ∧ _))

/-- Names are compared in lower case, and written so. -/
structure Proper (u : CaseMap) (o : DkimSignOptions) : Prop where
  domain : IsTagSafe o.domain
  selector : IsTagSafe o.selector
  names : ∀ n ∈ o.signedHeaders.getD defaultSignedHeaders, IsHeaderName (toLowerCase u n)

/-- Printable and no white space: a value of such characters is read as it is. -/
def Solid (s : Text) : Prop := ∀ c ∈ s, 33 ≤ c.toNat ∧ c.toNat ≤ 126

section

variable {s t : Text}

theorem Solid.white (h : Solid s) : ∀ c ∈ s, isWhiteSpace c = false := by
  intro c hc
  obtain ⟨hlow, hhigh⟩ := h c hc
  rw [isWhiteSpace]
  simp only [Bool.or_eq_false_iff, Bool.and_eq_false_iff, decide_eq_false_iff_not,
    beq_eq_false_iff_ne]
  omega

theorem Solid.strip (h : Solid s) : stripFws s = s := by
  refine List.filter_eq_self.mpr fun c hc => ?_
  have hlow := (h c hc).1
  have hne : ∀ d : Char, d.toNat < 33 → c ≠ d := by
    rintro d hd rfl
    omega
  simp [hne ' ' (by decide), hne '\t' (by decide), hne '\r' (by decide), hne '\n' (by decide)]

theorem Solid.ascii (h : Solid s) : s.all isAscii = true := by
  refine List.all_eq_true.mpr fun c hc => ?_
  have hhigh := (h c hc).2
  rw [isAscii, decide_eq_true_eq]
  omega

theorem solid_base64 (b : Bytes) : Solid (base64Encode b) := by
  refine base64Encode_forall (fun n hn => ?_) (by decide) b
  revert n
  decide

theorem notMem_base64 (b : Bytes) : ';' ∉ base64Encode b := by
  intro hmem
  refine base64Encode_forall (P := fun c => c ≠ ';') (fun n hn => ?_) (by decide) b _ hmem rfl
  revert n
  decide

theorem solid_join {ns : List Text} (h : ∀ n ∈ ns, Solid n) : Solid (join [':'] ns) := by
  intro c hc
  rcases mem_join hc with rfl | ⟨n, hn, hmem⟩
  · decide
  · exact h n hn c hmem

end

theorem foldFrom_eq (n col : Nat) {tail : Text} (hn : tail.length ≤ n) :
    ∃ (chunk : Text) (chunks : List Text), foldFrom n col tail =
        Pieces.glue '\r' '\n' (chunk :: chunks.map fun c => '\t' :: c) ∧
      chunk ++ chunks.flatten = tail := by
  induction n generalizing col tail with
  | zero =>
    obtain rfl := List.length_eq_zero_iff.mp (Nat.le_zero.mp hn)
    exact ⟨[], [], rfl, rfl⟩
  | succ n ih =>
    rw [foldFrom]
    split_ifs with hnil hlast
    · exact ⟨[], [], rfl, hnil.symm⟩
    · refine ⟨tail, [], ?_, List.append_nil tail⟩
      rw [List.append_nil, List.take_of_length_le (List.drop_eq_nil_iff.mp hlast)]
      rfl
    · have hpos := List.length_pos_iff.mpr hnil
      have hdrop : (tail.drop (max (foldWidth - col) 1)).length ≤ n := by
        rw [List.length_drop]
        omega
      obtain ⟨chunk, chunks, heq, hflat⟩ := ih 1 hdrop
      refine ⟨tail.take (max (foldWidth - col) 1), chunk :: chunks, ?_, ?_⟩
      · have htab : ∀ cs : List Text, '\t' :: Pieces.glue '\r' '\n' (chunk :: cs) =
            Pieces.glue '\r' '\n' (('\t' :: chunk) :: cs) := by
          intro cs
          cases cs <;> rfl
        rw [heq, htab, List.map_cons, Pieces.glue_cons (List.cons_ne_nil _ _)]
        rfl
      · rw [List.flatten_cons, hflat, List.take_append_drop]

theorem stripFws_append (s t : Text) : stripFws (s ++ t) = stripFws s ++ stripFws t :=
  List.filter_append s t

theorem stripFws_glue (ps : List Text) :
    stripFws (Pieces.glue '\r' '\n' ps) = (ps.map stripFws).flatten := by
  induction ps with
  | nil => rfl
  | cons p ps ih =>
    by_cases hnil : ps = []
    · simp [hnil, Pieces.glue]
    · have hline : ∀ t : Text, stripFws ('\r' :: '\n' :: t) = stripFws t := fun _ => rfl
      rw [Pieces.glue_cons hnil, stripFws_append, hline, ih, List.map_cons, List.flatten_cons]

theorem stripFws_fold {tail : Text} (h : Solid tail) (n : Nat) :
    stripFws (foldSignatureTail n tail) = tail := by
  obtain ⟨chunk, chunks, heq, hflat⟩ := foldFrom_eq tail.length n (Nat.le_refl tail.length)
  have htab : ∀ l : Text, stripFws ('\t' :: l) = stripFws l := fun _ => rfl
  have hmap : (chunks.map fun l => '\t' :: l).map stripFws = chunks.map stripFws := by
    rw [List.map_map]
    exact List.map_congr_left fun l _ => htab l
  have hflatten : ((chunk :: chunks).map stripFws).flatten = stripFws (chunk :: chunks).flatten :=
    List.filter_flatten.symm
  rw [foldSignatureTail, heq, stripFws_glue, List.map_cons, hmap, ← List.map_cons, hflatten,
    List.flatten_cons, hflat, h.strip]

theorem headerLines_fold {head tail : Text} (hne : head ≠ [])
    (hprint : ∀ ch ∈ head, 32 ≤ ch.toNat ∧ ch.toNat ≤ 126) (hstart : isContinuation head = false)
    (htail : Solid tail) (n : Nat) : ∃ (chunk : Text) (chunks : List Text),
      HeaderLines [(head ++ chunk) :: chunks] ∧
        head ++ foldSignatureTail n tail = Pieces.glue '\r' '\n' ((head ++ chunk) :: chunks) := by
  obtain ⟨chunk, chunks, heq, hflat⟩ := foldFrom_eq tail.length n (Nat.le_refl tail.length)
  have htails : ∀ ch ∈ chunk ++ chunks.flatten, 33 ≤ ch.toNat ∧ ch.toNat ≤ 126 := hflat ▸ htail
  have hfirst : ∀ ch ∈ head ++ chunk, 32 ≤ ch.toNat ∧ ch.toNat ≤ 126 := by
    refine List.forall_mem_append.mpr ⟨hprint, fun ch hch => ?_⟩
    have hrange := htails ch (List.mem_append_left _ hch)
    omega
  have hrest : ∀ l ∈ chunks.map (fun l => '\t' :: l), ∃ l', l = '\t' :: l' ∧
      ∀ ch ∈ l', 33 ≤ ch.toNat ∧ ch.toNat ≤ 126 := by
    intro l hl
    obtain ⟨l', hl', rfl⟩ := List.mem_map.mp hl
    exact ⟨l', rfl, fun ch hch =>
      htails ch (List.mem_append_right _ (List.mem_flatten.mpr ⟨l', hl', hch⟩))⟩
  have hplain : ∀ ch : Char, 32 ≤ ch.toNat → ch ≠ '\r' ∧ ch ≠ '\n' := by
    intro ch hch
    constructor <;> rintro rfl <;> exact absurd hch (by decide)
  refine ⟨chunk, chunks.map (fun l => '\t' :: l), ⟨by simp, ?_, ?_, ?_⟩, ?_⟩
  · rw [List.forall_mem_singleton]
    refine ⟨?_, fun l hl => ?_, List.forall_mem_cons.mpr ⟨fun ch hch => hplain ch (hfirst ch hch).1,
      fun l hl => ?_⟩⟩
    · obtain ⟨c, s, rfl⟩ := List.exists_cons_of_ne_nil hne
      exact hstart
    · obtain ⟨l', rfl, -⟩ := hrest l hl
      rfl
    · obtain ⟨l', rfl, hl'⟩ := hrest l hl
      refine List.forall_mem_cons.mpr ⟨by decide, fun ch hch => hplain ch ?_⟩
      have hrange := hl' ch hch
      omega
  · rw [List.flatten_singleton]
    refine List.forall_mem_cons.mpr ⟨List.append_ne_nil_of_left_ne_nil hne _, fun l hl => ?_⟩
    obtain ⟨l', rfl, -⟩ := hrest l hl
    exact List.cons_ne_nil _ _
  · rw [List.flatten_singleton]
    refine List.forall_mem_cons.mpr ⟨fun ch hch => ?_, fun l hl => ?_⟩
    · have hrange := hfirst ch hch
      omega
    · obtain ⟨l', rfl, hl'⟩ := hrest l hl
      refine List.forall_mem_cons.mpr ⟨by decide, fun ch hch => ?_⟩
      have hrange := hl' ch hch
      omega
  · rw [foldSignatureTail, heq]
    cases chunks with
    | nil => rfl
    | cons l chunks =>
      rw [List.map_cons, Pieces.glue_cons (List.cons_ne_nil _ _),
        Pieces.glue_cons (List.cons_ne_nil _ _), List.append_assoc]

theorem notMem_fold {tail : Text} (h : ';' ∉ tail) (n : Nat) :
    ';' ∉ foldSignatureTail n tail := by
  obtain ⟨chunk, chunks, heq, hflat⟩ := foldFrom_eq tail.length n (Nat.le_refl tail.length)
  intro hmem
  rw [foldSignatureTail, heq] at hmem
  rcases Pieces.mem_glue hmem with hcr | hlf | ⟨l, hl, hl'⟩
  · exact absurd hcr (by decide)
  · exact absurd hlf (by decide)
  refine h (hflat ▸ ?_)
  rcases List.mem_cons.mp hl with rfl | htab
  · exact List.mem_append_left _ hl'
  · obtain ⟨l₀, hl₀, rfl⟩ := List.mem_map.mp htab
    refine List.mem_append_right _ (List.mem_flatten.mpr ⟨l₀, hl₀, ?_⟩)
    exact (List.mem_cons.mp hl').resolve_left (by decide)

/-- A name as it stands in `h=`. -/
structure IsListName (u : CaseMap) (n : Text) : Prop where
  ne_nil : n ≠ []
  lower : toLowerCase u n = n
  solid : Solid n
  safe : ∀ c ∈ n, c ≠ ';' ∧ c ≠ ':'
  other : n ≠ "dkim-signature".toList

section

variable {u : CaseMap} {o : DkimSignOptions} {fields : List HeaderField} {f : HeaderField}
  {n : Text} {ns : List Text}

theorem asciiLower_eq (c : Char) :
    (asciiLower c).toNat = if 65 ≤ c.toNat ∧ c.toNat ≤ 90 then c.toNat + 32 else c.toNat := by
  rw [asciiLower]
  simp only [Bool.and_eq_true, decide_eq_true_eq]
  split_ifs with h
  · exact toNat_ofNat_lt (by omega)
  · rfl

theorem asciiLower_idem (c : Char) : asciiLower (asciiLower c) = asciiLower c := by
  have h := asciiLower_eq c
  rw [asciiLower, if_neg]
  rw [Bool.and_eq_true, decide_eq_true_eq, decide_eq_true_eq, h]
  split_ifs <;> omega

theorem isFieldName_chars {name : Text} (h : isFieldName name) :
    ∀ c ∈ name, (33 ≤ c.toNat ∧ c.toNat ≤ 126) ∨ isWhiteSpace c ∧ c.toNat < 128 := by
  obtain ⟨d, s, rfl, hd⟩ := head_of_isFieldName h
  have hchar : ∀ c, isFieldNameChar c → 33 ≤ c.toNat ∧ c.toNat ≤ 126 := by
    intro c hc
    simp only [isFieldNameChar, Bool.or_eq_true, Bool.and_eq_true, decide_eq_true_eq] at hc
    omega
  rw [isFieldName, Bool.and_eq_true, List.all_eq_true] at h
  refine List.forall_mem_cons.mpr ⟨.inl (hchar d hd), fun c hc => ?_⟩
  have hcase := h.2 c hc
  simp only [Bool.or_eq_true, decide_eq_true_eq] at hcase
  rcases hcase with (hfield | rfl) | rfl
  · exact .inl (hchar c hfield)
  · exact .inr (by decide)
  · exact .inr (by decide)

theorem fieldKey_eq (h : isFieldName f.name) : fieldKey u f = (trim f.name).map asciiLower := by
  refine if_pos (List.all_eq_true.mpr fun c hc => ?_)
  have hcase := isFieldName_chars h c (mem_of_mem_trim hc)
  rw [isAscii, decide_eq_true_eq]
  omega

theorem isListName_fieldKey (h : isFieldName f.name) (hname : IsHeaderName (fieldKey u f)) :
    IsListName u (fieldKey u f) := by
  have hsolid : Solid (fieldKey u f) := by
    intro c hc
    have hwhite := (hname.1 c hc).2.2.2
    rw [fieldKey_eq h] at hc
    obtain ⟨d, hd, rfl⟩ := List.mem_map.mp hc
    have hlower := asciiLower_eq d
    rcases isFieldName_chars h d (mem_of_mem_trim hd) with hrange | ⟨hd', -⟩
    · split_ifs at hlower <;> omega
    · have hsame : asciiLower d = d := by
        refine if_neg fun hupper => ?_
        simp only [Bool.and_eq_true, decide_eq_true_eq] at hupper
        simp only [isWhiteSpace, Bool.or_eq_true, Bool.and_eq_true, decide_eq_true_eq,
          beq_iff_eq] at hd'
        omega
      rw [hsame, hd'] at hwhite
      cases hwhite
  refine ⟨?_, ?_, hsolid, fun c hc => ⟨(hname.1 c hc).1, (hname.1 c hc).2.2.1⟩, hname.2⟩
  · obtain ⟨c, s, hcs, hc⟩ := head_of_isFieldName h
    have hwhite : isWhiteSpace c = false := by
      refine Solid.white (s := [c]) (fun d hd => ?_) c (List.mem_singleton_self c)
      rw [List.mem_singleton.mp hd]
      simp only [isFieldNameChar, Bool.or_eq_true, Bool.and_eq_true, decide_eq_true_eq] at hc
      omega
    rw [fieldKey_eq h, ne_eq, List.map_eq_nil_iff]
    exact trim_ne_nil (hcs ▸ .head s) hwhite
  · refine (if_pos hsolid.ascii).trans ?_
    rw [fieldKey_eq h, List.map_map]
    exact List.map_congr_left fun c _ => asciiLower_idem c

theorem isListName_from (u : CaseMap) : IsListName u "from".toList :=
  ⟨by decide, (if_pos (by decide)).trans (by decide), by simp [Solid], by decide, by decide⟩

theorem isListName_signedNames (ho : Proper u o) (hfields : ∀ f ∈ fields, isFieldName f.name) :
    ∀ n ∈ signedNames u o (groupHeaderFields u fields), IsListName u n := by
  intro n hn
  rw [signedNames, List.mem_cons, List.mem_cons] at hn
  rcases hn with rfl | rfl | hn
  · exact isListName_from u
  · exact isListName_from u
  obtain ⟨hasked, hthere⟩ := List.mem_filter.mp hn
  rw [Bool.and_eq_true, isSome_groupHeaderFields] at hthere
  obtain ⟨m, hm, rfl⟩ := List.mem_map.mp hasked
  obtain ⟨f, hf, hkey⟩ := hthere.2
  have hname := ho.names m hm
  rw [← hkey] at hname ⊢
  exact isListName_fieldKey (hfields f hf) hname

theorem signedNamesOf_join (hne : ns ≠ []) (h : ∀ n ∈ ns, IsListName u n) :
    signedNamesOf u (join [':'] ns) = ns := by
  have hcolon : ∀ n ∈ ns, ':' ∉ n := fun n hn hmem => ((h n hn).safe _ hmem).2 rfl
  rw [signedNamesOf, join, List.splitOn_intercalate ':' hcolon hne]
  have hmap : ns.map (fun s => toLowerCase u (trim s)) = ns := by
    refine (List.map_congr_left fun n hn => ?_).trans (List.map_id ns)
    rw [trim_of_all (h n hn).solid.white, (h n hn).lower]
    rfl
  rw [hmap]
  exact List.filter_eq_self.mpr fun n hn => by simpa using (h n hn).ne_nil

end

theorem join_segments {ps : List (Text × Text)} (hne : ps ≠ []) :
    ' ' :: join "; ".toList (ps.map fun p => p.1 ++ '=' :: p.2) = tagText ps := by
  induction ps with
  | nil => exact absurd rfl hne
  | cons p ps ih =>
    by_cases hnil : ps = []
    · simp [hnil, join, tagText, segmentText]
    · rw [tagText_cons hnil, ← ih hnil, join, List.map_cons,
        List.intercalate_cons_of_ne_nil (by simpa using hnil), ← join]
      simp [segmentText]

section

variable {K : Type} {c : Crypto K} {u : CaseMap} {now : Nat} {o : DkimSignOptions}
  {ns : List Text} {body value : Text}

/-- All tags but `b`. -/
def frontTags (c : Crypto K) (now : Nat) (o : DkimSignOptions) (ns : List Text) (body : Text) :
    List (Text × Text) :=
  [("v".toList, "1".toList), ("a".toList, o.algorithm.text),
    ("c".toList, o.headerMode.text ++ '/' :: o.bodyMode.text), ("d".toList, o.domain),
    ("s".toList, o.selector), ("t".toList, natText (o.timestamp.getD (now / 1000)))] ++
  (o.expiration.map fun x => ("x".toList, natText x)).toList ++
  [("h".toList, join [':'] ns),
    ("bh".toList, base64Encode (sha256Text c (canonBody body o.bodyMode)))]

theorem signedTags_eq : signedTags c now o ns body = frontTags c now o ns body ++ [(['b'], [])] := by
  rw [signedTags, frontTags, List.append_assoc, List.append_assoc, List.append_assoc]
  rfl

/-- The field with `value` after `b=`. -/
def fieldWith (c : Crypto K) (now : Nat) (o : DkimSignOptions) (ns : List Text)
    (body value : Text) : HeaderField :=
  ⟨"DKIM-Signature".toList,
    "DKIM-Signature:".toList ++ tagText (frontTags c now o ns body ++ [(['b'], value)])⟩

theorem raw_fieldWith : (fieldWith c now o ns body value).raw =
    "DKIM-Signature:".toList ++ tagText (frontTags c now o ns body ++ [(['b'], value)]) := rfl

theorem unsignedText_eq : unsignedText (signedTags c now o ns body) =
    (fieldWith c now o ns body []).raw := by
  have hhead : "DKIM-Signature: ".toList = "DKIM-Signature:".toList ++ [' '] := by decide
  have hne : frontTags c now o ns body ++ [(['b'], [])] ≠ [] := by simp
  rw [raw_fieldWith, ← join_segments hne, ← signedTags_eq, ← List.singleton_append, ← List.append_assoc,
    ← hhead]
  exact rfl

theorem raw_fieldWith_append : (fieldWith c now o ns body value).raw =
    unsignedText (signedTags c now o ns body) ++ value := by
  rw [unsignedText_eq, raw_fieldWith, raw_fieldWith, tagText_concat _ _ value, List.append_assoc]

/-- What every written value but that of `b` is. -/
structure IsFrontTag (p : Text × Text) : Prop extends Written p where
  solid : Solid p.2

variable (c now body) in
theorem isFrontTag (ho : Proper u o) (hns : ∀ n ∈ ns, IsListName u n) :
    ∀ p ∈ frontTags c now o ns body, IsFrontTag p := by
  have hnat : ∀ n, Solid (natText n) ∧ ';' ∉ natText n := by
    intro n
    have hdigits := natText_digits n
    refine ⟨fun c hc => ?_, fun hmem => ?_⟩
    · have hc' := hdigits c hc
      omega
    · exact absurd (hdigits _ hmem).2 (by decide)
  have hnames : ';' ∉ join [':'] ns := by
    intro hmem
    rcases mem_join hmem with hcolon | ⟨n, hn, hmem⟩
    · exact absurd hcolon (by decide)
    · exact ((hns n hn).safe _ hmem).1 rfl
  have hname : ∀ name : Text, name ∈ ["v", "a", "c", "d", "s", "t", "x", "h", "bh"].map String.toList →
      IsTagName name := by decide
  have hsafe : ∀ s : Text, IsTagSafe s → Solid s ∧ ';' ∉ s := by
    intro s hs
    exact ⟨fun c hc => ⟨(hs.2 c hc).1, (hs.2 c hc).2.1⟩, fun hmem => (hs.2 _ hmem).2.2 rfl⟩
  have halgorithm : ∀ a : DkimAlgorithm, (∀ c ∈ a.text, 33 ≤ c.toNat ∧ c.toNat ≤ 126) ∧
      ';' ∉ a.text := by
    intro a
    cases a <;> decide
  have hmodes : ∀ m m' : DkimCanonMode, (∀ c ∈ m.text ++ '/' :: m'.text, 33 ≤ c.toNat ∧
      c.toNat ≤ 126) ∧ ';' ∉ m.text ++ '/' :: m'.text := by
    intro m m'
    cases m <;> cases m' <;> decide
  suffices hall : ∀ p ∈ frontTags c now o ns body,
      p.1 ∈ ["v", "a", "c", "d", "s", "t", "x", "h", "bh"].map String.toList ∧
        Solid p.2 ∧ ';' ∉ p.2 by
    intro p hp
    obtain ⟨hmem, hsolid, hsemi⟩ := hall p hp
    exact ⟨⟨hname _ hmem, hsemi⟩, hsolid⟩
  intro p hp
  rw [frontTags, List.mem_append, List.mem_append] at hp
  rcases hp with (hp | hp) | hp
  · simp only [List.mem_cons, List.not_mem_nil, or_false] at hp
    rcases hp with rfl | rfl | rfl | rfl | rfl | rfl
    · exact ⟨by simp, by simp [Solid], by decide⟩
    · exact ⟨by simp, halgorithm _⟩
    · exact ⟨by simp, hmodes _ _⟩
    · exact ⟨by simp, hsafe _ ho.domain⟩
    · exact ⟨by simp, hsafe _ ho.selector⟩
    · exact ⟨by simp, hnat _⟩
  · obtain ⟨x, -, rfl⟩ := Option.map_eq_some_iff.mp (Option.mem_toList.mp hp)
    exact ⟨by simp, hnat _⟩
  · simp only [List.mem_cons, List.not_mem_nil, or_false] at hp
    rcases hp with rfl | rfl
    · exact ⟨by simp, solid_join fun n hn => (hns n hn).solid, hnames⟩
    · exact ⟨by simp, solid_base64 _, notMem_base64 _⟩

theorem findTag_fieldWith (ho : Proper u o) (hns : ∀ n ∈ ns, IsListName u n) (name : String)
    (offset : Nat) :
    findTag (tagsAt offset (frontTags c now o ns body ++ [(['b'], value)])) name =
      ((frontTags c now o ns body ++ [(['b'], stripFws value)]).find? fun p =>
        p.1 = name.toList).map Prod.snd := by
  rw [findTag_tagsAt, List.find?_append, List.find?_append]
  cases hfind : (frontTags c now o ns body).find? fun p => p.1 = name.toList with
  | some p =>
    have hp := isFrontTag c now body ho hns p
      (List.mem_of_find?_eq_some hfind)
    simp [hp.solid.strip]
  | none =>
    by_cases hb : ['b'] = name.toList <;> simp [hb]

theorem splitFirst_fieldWith : splitFirst ':' (fieldWith c now o ns body value).raw =
    some ("DKIM-Signature".toList, tagText (frontTags c now o ns body ++ [(['b'], value)])) := by
  have hhead : "DKIM-Signature:".toList = "DKIM-Signature".toList ++ [':'] := by decide
  rw [raw_fieldWith, hhead, List.append_assoc, List.singleton_append,
    splitFirst_of_notMem (by decide)]

theorem fieldValue_fieldWith : fieldValue (fieldWith c now o ns body value) =
    tagText (frontTags c now o ns body ++ [(['b'], value)]) := by
  rw [fieldValue, splitFirst_fieldWith]
  rfl

theorem parse_fieldWith (ho : Proper u o) (hns : ∀ n ∈ ns, IsListName u n) (hvalue : ';' ∉ value) :
    parseTagList u (fieldValue (fieldWith c now o ns body value)) =
      some (tagsAt 0 (frontTags c now o ns body ++ [(['b'], value)])) := by
  rw [fieldValue_fieldWith]
  refine parseTagList_tagText (by simp) (List.forall_mem_append.mpr ⟨fun p hp => ?_, ?_⟩)
  · exact (isFrontTag c now body ho hns p hp).toWritten
  · rw [List.forall_mem_singleton]
    have hname : IsTagName ['b'] := by decide
    exact ⟨hname, hvalue⟩

theorem splitOn_modes (m m' : DkimCanonMode) :
    (m.text ++ '/' :: m'.text).splitOn '/' = [m.text, m'.text] := by
  have hslash : ∀ m : DkimCanonMode, '/' ∉ m.text := by
    intro m
    cases m <;> decide
  have hjoin : m.text ++ '/' :: m'.text = ['/'].intercalate [m.text, m'.text] := by simp
  rw [hjoin, List.splitOn_intercalate '/' (by simp [hslash]) (by simp)]

theorem parseCanonMode_text (m : DkimCanonMode) : parseCanonMode m.text = some m := by
  cases m <;> decide

theorem parseAlgorithm_text (a : DkimAlgorithm) : parseAlgorithm a.text = some a := by
  cases a <;> decide

def tagsOf (c : Crypto K) (now : Nat) (o : DkimSignOptions) (ns : List Text) (body value : Text) :
    SignatureTags :=
  { tags := tagsAt 0 (frontTags c now o ns body ++ [(['b'], value)])
    domain := o.domain
    selector := o.selector
    algorithm := o.algorithm
    bh := base64Encode (sha256Text c (canonBody body o.bodyMode))
    b := stripFws value
    hNames := ns
    headerCanon := o.headerMode
    bodyCanon := o.bodyMode }

variable (c now body value) in
theorem findTag_tagsOf (ho : Proper u o) (hns : ∀ n ∈ ns, IsListName u n) :
    let find := findTag (tagsOf c now o ns body value).tags
    find "v" = some "1".toList ∧ find "a" = some o.algorithm.text ∧
      find "c" = some (o.headerMode.text ++ '/' :: o.bodyMode.text) ∧ find "d" = some o.domain ∧
      find "s" = some o.selector ∧ find "h" = some (join [':'] ns) ∧
      find "bh" = some (base64Encode (sha256Text c (canonBody body o.bodyMode))) ∧
      find "b" = some (stripFws value) ∧ find "x" = o.expiration.map natText ∧ find "l" = none ∧
      find "i" = none := by
  simp only [tagsOf, findTag_fieldWith ho hns]
  cases hx : o.expiration <;> simp [frontTags, hx]

theorem readSignature_fieldWith (ho : Proper u o) (hns : ∀ n ∈ ns, IsListName u n)
    (hfrom : "from".toList ∈ ns) (hvalue : ';' ∉ value) (hb : stripFws value ≠ []) :
    readSignature u (fieldWith c now o ns body value) = .ok (tagsOf c now o ns body value) := by
  have hne : ns ≠ [] := List.ne_nil_of_mem hfrom
  obtain ⟨hv, ha, hc, hd, hs, hh, hbh, hb', -⟩ := findTag_tagsOf c now body value ho hns
  have htags : tagsAt 0 (frontTags c now o ns body ++ [(['b'], value)]) =
    (tagsOf c now o ns body value).tags := rfl
  have hjoin : join [':'] ns ≠ [] := by
    intro hnil
    have hsplit := signedNamesOf_join hne hns
    rw [hnil] at hsplit
    exact hne (hsplit.symm.trans rfl)
  have hhash : base64Encode (sha256Text c (canonBody body o.bodyMode)) ≠ [] := by
    intro hnil
    have hlen := c.sha256_length (latin1Encode (canonBody body o.bodyMode))
    rw [← sha256Text, base64Encode_eq_nil.mp hnil] at hlen
    cases hlen
  have halgorithm : o.algorithm.text ≠ [] ∧ o.algorithm.text ≠ "rsa-sha1".toList := by
    cases o.algorithm <;> decide
  have hcontains : ns.contains "from".toList = true := List.contains_iff_mem.mpr hfrom
  rw [readSignature, parse_fieldWith ho hns hvalue, htags]
  dsimp only
  simp only [hv, ha, hc, hd, hs, hh, hbh, hb', Option.getD_some, ne_eq, not_true, if_false,
    halgorithm, hhash, hb, hjoin, ho.domain.1, ho.selector.1, or_self, parseAlgorithm_text,
    signedNamesOf_join hne hns, hcontains, Bool.not_true, splitOn_modes, List.getD_cons_zero,
    List.getD_cons_succ, parseCanonMode_text, Bool.false_eq_true]
  rfl

/-- With an empty `b=` the field is the one that was signed. -/
theorem dataToVerify_fieldWith {groups : List (Text × List HeaderField)} :
    dataToVerify u groups (fieldWith c now o ns body value) (tagsOf c now o ns body value) =
      hashInput u (resolveHeaderSequence u groups ns) (fieldWith c now o ns body []) o.headerMode := by
  have hfind : (tagsOf c now o ns body value).tags.find? (fun t => t.tag = "b".toList) =
      some ⟨['b'], stripFws value,
        (tagText (frontTags c now o ns body ++ [(['b'], [])])).length,
        (tagText (frontTags c now o ns body ++ [(['b'], value)])).length⟩ := by
    have hnone : (frontTags c now o ns body).find? (fun p => p.1 = "b".toList) = none := by
      cases hx : o.expiration <;> simp [frontTags, hx]
    have htags : (tagsAt 0 (frontTags c now o ns body)).find? (fun t => t.tag = "b".toList) = none := by
      have h := findTag_tagsAt (frontTags c now o ns body) "b" 0
      rw [hnone, findTag] at h
      exact Option.map_eq_none_iff.mp h
    rw [tagsOf, tagsAt_concat, List.find?_append, htags, Nat.zero_add, Nat.zero_add]
    rfl
  rw [dataToVerify, hfind, fieldValue_fieldWith, splitFirst_fieldWith]
  dsimp only
  rw [blankTag_last]
  have hraw : "DKIM-Signature".toList ++ ':' :: tagText (frontTags c now o ns body ++ [(['b'], [])]) =
      (fieldWith c now o ns body []).raw := by
    have hhead : "DKIM-Signature:".toList = "DKIM-Signature".toList ++ [':'] := by decide
    rw [raw_fieldWith, hhead, List.append_assoc, List.singleton_append]
  exact congrArg (fun raw => hashInput u (resolveHeaderSequence u groups ns)
    ⟨"DKIM-Signature".toList, raw⟩ o.headerMode) hraw

theorem mem_tagText {ps : List (Text × Text)} {ch : Char} (h : ch ∈ tagText ps) :
    ch ∈ [';', ' ', '='] ∨ ∃ p ∈ ps, ch ∈ p.1 ∨ ch ∈ p.2 := by
  induction ps with
  | nil => cases h
  | cons p ps ih =>
    have hseg : ch ∈ segmentText p → ch ∈ [';', ' ', '='] ∨ ch ∈ p.1 ∨ ch ∈ p.2 := by
      intro hmem
      simp only [segmentText, List.cons_append, List.mem_cons, List.mem_append] at hmem
      rcases hmem with rfl | hname | rfl | hvalue
      · exact .inl (by simp)
      · exact .inr (.inl hname)
      · exact .inl (by simp)
      · exact .inr (.inr hvalue)
    by_cases hnil : ps = []
    · have hone : ch ∈ segmentText p := by simpa [tagText, hnil] using h
      exact (hseg hone).imp id fun hp => ⟨p, .head _, hp⟩
    · rw [tagText_cons hnil, List.mem_append, List.mem_cons] at h
      rcases h with hp | rfl | hrest
      · exact (hseg hp).imp id fun hp => ⟨p, .head _, hp⟩
      · exact .inl (by simp)
      · refine (ih hrest).imp id fun hps => ?_
        obtain ⟨q, hq, hmem⟩ := hps
        exact ⟨q, .tail _ hq, hmem⟩

variable (c now body) in
theorem printable_unsignedText (ho : Proper u o) (hns : ∀ n ∈ ns, IsListName u n) :
    ∀ ch ∈ unsignedText (signedTags c now o ns body), 32 ≤ ch.toNat ∧ ch.toNat ≤ 126 := by
  intro ch hch
  rw [unsignedText_eq, raw_fieldWith, List.mem_append] at hch
  have hletters : ∀ d ∈ "DKIM-Signature:".toList ++ [';', ' ', '='],
      32 ≤ d.toNat ∧ d.toNat ≤ 126 := by decide
  rcases hch with hhead | htags
  · exact hletters ch (List.mem_append_left _ hhead)
  rcases mem_tagText htags with hsep | ⟨p, hp, hmem⟩
  · exact hletters ch (List.mem_append_right _ hsep)
  rcases List.mem_append.mp hp with hfront | hlast
  · have hp' := isFrontTag c now body ho hns p hfront
    rcases hmem with hname | hvalue
    · have hrange := hp'.name.2 ch hname
      omega
    · have hrange := hp'.solid ch hvalue
      omega
  · rw [List.mem_singleton.mp hlast] at hmem
    have hb : ch = 'b' := by simpa using hmem
    rw [hb]
    decide

variable (c now body) in
theorem headerLines_fieldWith (ho : Proper u o) (hns : ∀ n ∈ ns, IsListName u n) {tail : Text}
    (htail : Solid tail) (n : Nat) :
    ∃ ls, HeaderLines [ls] ∧
      (fieldWith c now o ns body (foldSignatureTail n tail)).raw = Pieces.glue '\r' '\n' ls := by
  have hunsigned := printable_unsignedText c now body ho hns
  rw [raw_fieldWith_append]
  have hhead : ∃ s, unsignedText (signedTags c now o ns body) = 'D' :: s := by
    rw [unsignedText_eq, raw_fieldWith]
    exact ⟨_, rfl⟩
  obtain ⟨s, hs⟩ := hhead
  rw [hs] at hunsigned ⊢
  obtain ⟨chunk, chunks, hlines, heq⟩ := headerLines_fold (List.cons_ne_nil _ _) hunsigned
    (notContinuation_of_isFieldNameChar (by decide) s).1 htail n
  exact ⟨_, hlines, heq⟩

theorem toField_fieldWith : toField (fieldWith c now o ns body value).raw =
    some (fieldWith c now o ns body value) := by
  have hname : isFieldName "DKIM-Signature".toList = true := by decide
  rw [toField, splitFirst_fieldWith]
  dsimp only
  rw [if_pos hname]
  rfl

end

end Ionosphere.MailAuth
