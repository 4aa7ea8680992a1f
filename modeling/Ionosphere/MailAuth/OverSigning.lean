import Ionosphere.MailAuth.RoundTrip

/-! From is listed twice in `h=`, and the fields of a name are consumed from the bottom. A From field
that is added to the one of the message is therefore signed as missing; with two From fields both
entries are used up, and one more on top goes unnoticed. -/
namespace Ionosphere.MailAuth

open Ionosphere.Js Ionosphere.Core Ionosphere.Lib

section

variable {fs : List HeaderField} {f : HeaderField}

theorem WellFormed.lines {ls : List Text} (h : WellFormed f) (hls : Folded ls)
    (heq : f.raw = Pieces.glue '\r' '\n' ls) : ∀ l ∈ ls, l ≠ [] := by
  obtain @⟨l, cs, -, hrest, -⟩ := hls
  refine List.forall_mem_cons.mpr ⟨?_, fun c hc hnil => ?_⟩
  · rintro rfl
    obtain ⟨-, hname, value, hraw⟩ := toField_eq_some h.parsed
    obtain ⟨d, s, hd, hd'⟩ := head_of_isFieldName hname
    rw [hd, heq] at hraw
    cases cs with
    | nil => cases hraw
    | cons c cs =>
      have hcr : '\r' = d := (List.cons.inj hraw).1
      exact (notContinuation_of_isFieldNameChar hd' s).2 hcr.symm
  · have hcont := hrest c hc
    rw [hnil] at hcont
    cases hcont

theorem splitBlank_lines {ls : List Text} (hplain : ∀ l ∈ ls, Plain l) (hlines : ∀ l ∈ ls, l ≠ []) :
    splitBlank (Pieces.glue '\r' '\n' ls) = none := by
  have hline : ∀ l, Plain l → splitBlank l = none := by
    intro l hl
    induction l with
    | nil => rfl
    | cons c l ih =>
      obtain ⟨hc, hl⟩ := List.forall_mem_cons.mp hl
      have hpre : List.isPrefixOf (crlf ++ crlf) (c :: l) = false := by
        have hcr : ('\r' == c) = false := beq_eq_false_iff_ne.mpr (Ne.symm hc.1)
        simp [crlf, List.isPrefixOf, hcr]
      rw [splitBlank, hpre, if_neg Bool.false_ne_true, ih hl]
      rfl
  induction ls with
  | nil => rfl
  | cons l ls ih =>
    obtain ⟨hl, hls⟩ := List.forall_mem_cons.mp hplain
    obtain ⟨-, hne⟩ := List.forall_mem_cons.mp hlines
    cases ls with
    | nil => exact hline l hl
    | cons l' ls =>
      obtain ⟨c, t, rfl⟩ := List.exists_cons_of_ne_nil (hne l' (by simp))
      have hc : c ≠ '\r' := (hls (c :: t) (by simp) c (by simp)).1
      have hhead : (Pieces.glue '\r' '\n' ((c :: t) :: ls)).head? ≠ some '\r' := by
        cases ls <;> simpa [Pieces.glue] using hc
      rw [Pieces.glue_cons (List.cons_ne_nil _ _), splitBlank_append hl hhead, ih hls hne]
      rfl

theorem exists_readMessage (hne : fs ≠ []) (hwf : ∀ f ∈ fs, WellFormed f)
    (hbytes : ∀ f ∈ fs, ∀ c ∈ f.raw, c.toNat < 256) : ∃ raw, (readMessage raw).1 = fs := by
  have hlines : ∃ rs : List (List Text), (∀ ls ∈ rs, Folded ls) ∧ (∀ ls ∈ rs, ∀ l ∈ ls, l ≠ []) ∧
      fs.map HeaderField.raw = rs.map (Pieces.glue '\r' '\n') := by
    clear hne hbytes
    induction fs with
    | nil => exact ⟨[], List.forall_mem_nil _, List.forall_mem_nil _, rfl⟩
    | cons f fs ih =>
      obtain ⟨hf, hfs⟩ := List.forall_mem_cons.mp hwf
      obtain ⟨ls, hls, hraw⟩ := hf.folded
      obtain ⟨rs, hrs, hrs', heq⟩ := ih hfs
      exact ⟨ls :: rs, List.forall_mem_cons.mpr ⟨hls, hrs⟩,
        List.forall_mem_cons.mpr ⟨hf.lines hls hraw, hrs'⟩, by rw [List.map_cons, hraw, heq,
          List.map_cons]⟩
  obtain ⟨rs, hrs, hrs', heq⟩ := hlines
  have hglue : Pieces.glue '\r' '\n' (fs.map HeaderField.raw) =
      Pieces.glue '\r' '\n' rs.flatten := by
    rw [heq, glue_map_glue fun ls hls => (hrs ls hls).ne_nil]
  have hblock : ∀ c ∈ Pieces.glue '\r' '\n' (fs.map HeaderField.raw), c.toNat < 256 := by
    intro c hc
    rcases Pieces.mem_glue hc with rfl | rfl | ⟨r, hr, hmem⟩
    · decide
    · decide
    · obtain ⟨f, hf, rfl⟩ := List.mem_map.mp hr
      exact hbytes f hf c hmem
  refine ⟨latin1Encode (Pieces.glue '\r' '\n' (fs.map HeaderField.raw)), ?_⟩
  rw [readMessage, latin1Decode_latin1Encode hblock, hglue,
    normalizeLineEndings_glue (plain_flatten hrs), splitMessage,
    splitBlank_lines (plain_flatten hrs) fun l hl => ?_, ← hglue]
  · exact parse_unparse hne hwf
  · obtain ⟨ls, hls, hmem⟩ := List.mem_flatten.mp hl
    exact hrs' ls hls l hmem

theorem bytes_readMessage (raw : Bytes) : ∀ f ∈ (readMessage raw).1, ∀ c ∈ f.raw,
    c.toNat < 256 := by
  have hnorm : ∀ (b : Bool) (s : Text), (∀ c ∈ s, c.toNat < 256) →
      ∀ c ∈ normalizeFrom b s, c.toNat < 256 := by
    intro b s hs
    induction s generalizing b with
    | nil => exact List.forall_mem_nil _
    | cons d s ih =>
      obtain ⟨hd, hs⟩ := List.forall_mem_cons.mp hs
      have hcrlf : ∀ c ∈ crlf, c.toNat < 256 := by decide
      rw [normalizeFrom]
      split_ifs
      · exact List.forall_mem_append.mpr ⟨hcrlf, ih true hs⟩
      · exact ih false hs
      · exact List.forall_mem_append.mpr ⟨hcrlf, ih false hs⟩
      · exact List.forall_mem_cons.mpr ⟨hd, ih false hs⟩
  have hblock : ∀ c ∈ (splitMessage (normalizeLineEndings (latin1Decode raw))).headerBlock,
      c.toNat < 256 := by
    have htext := hnorm false _ (latin1Decode_lt raw)
    rw [splitMessage]
    cases h : splitBlank (normalizeLineEndings (latin1Decode raw)) with
    | none => exact htext
    | some p =>
      obtain ⟨a, b⟩ := p
      intro c hc
      have hsplit := splitBlank_eq h
      rw [normalizeLineEndings] at hsplit
      exact htext c (hsplit ▸ List.mem_append_left _ hc)
  intro f hf c hc
  have hrecords : ∀ lines : List Text, (∀ l ∈ lines, ∀ c ∈ l, c.toNat < 256) →
      ∀ r ∈ lines.foldl addLine [], ∀ c ∈ r, c.toNat < 256 := by
    intro lines hlines
    induction lines using List.reverseRecOn with
    | nil => exact List.forall_mem_nil _
    | append_singleton lines l ih =>
      obtain ⟨hlines, hl⟩ := List.forall_mem_append.mp hlines
      have hl := List.forall_mem_singleton.mp hl
      have hold := ih hlines
      rw [List.foldl_concat, addLine]
      split_ifs with hcont
      · refine List.forall_mem_append.mpr ⟨fun r hr => hold r ((List.dropLast_sublist _).mem hr), ?_⟩
        rw [Bool.and_eq_true, Bool.not_eq_true', List.isEmpty_eq_false_iff] at hcont
        obtain ⟨front, last, heq⟩ := (List.eq_nil_or_concat' _).resolve_left hcont.2
        rw [heq, List.getLastD_concat]
        refine List.forall_mem_singleton.mpr (List.forall_mem_append.mpr
          ⟨List.forall_mem_append.mpr ⟨hold last (heq ▸ by simp), by decide⟩, hl⟩)
      · exact List.forall_mem_append.mpr ⟨hold, List.forall_mem_singleton.mpr hl⟩
  rw [readMessage] at hf
  dsimp only at hf
  rw [parseHeaderFields_eq, List.mem_filterMap] at hf
  obtain ⟨r, hr, hfield⟩ := hf
  refine hrecords _ (fun l hl d hd => hblock d ?_) r hr c ((toField_eq_some hfield).1 ▸ hc)
  have hmem : d ∈ Pieces.glue '\r' '\n' (Pieces.split '\r' '\n'
      (splitMessage (normalizeLineEndings (latin1Decode raw))).headerBlock) :=
    Pieces.mem_glue_of_mem hl hd
  rwa [Pieces.glue_split] at hmem

end

section

variable {K : Type} (c : Crypto K) (u : CaseMap)

def AddsFrom (fields fields' : List HeaderField) : Prop :=
  ∃ a b new, fields = a ++ b ∧ fieldKey u new = "from".toList ∧ fields' = a ++ new :: b

/-- The header-hash input of `dkimVerify`, for the signature in `field`. -/
def reconstructed (raw : Bytes) (field : HeaderField) : Option Bytes :=
  match readSignature u field with
  | .error _ => none
  | .ok s => some (dataToVerify u (groupHeaderFields u (readMessage raw).1) field s)

end

section

variable {K : Type} {c : Crypto K} {u : CaseMap} {now : Nat} {o : DkimSignOptions}
  {raw : Bytes} {header : Text} {fields fields' : List HeaderField}

def fromFields (u : CaseMap) (fields : List HeaderField) : List HeaderField :=
  fields.filter fun f => fieldKey u f = "from".toList

theorem resolve_twice (names : List Text) :
    resolveHeaderSequence u (groupHeaderFields u fields)
        ("from".toList :: "from".toList :: names) =
      (fromFields u fields)[(fromFields u fields).length - 1]? ::
        (if 2 ≤ (fromFields u fields).length then
          (fromFields u fields)[(fromFields u fields).length - 2]? else none) ::
        resolveFrom u (groupHeaderFields u fields) [("from".toList, 2)] names := by
  have hname : toLowerCase u (trim "from".toList) = "from".toList := if_pos (by decide)
  have hcount : Assoc.set (Assoc.set ([] : List (Text × Nat)) "from".toList 1) "from".toList 2 =
      [("from".toList, 2)] := by decide
  have hone : (Assoc.get (Assoc.set ([] : List (Text × Nat)) "from".toList 1)
      "from".toList).getD 0 = 1 := by decide
  have harr : (Assoc.get (groupHeaderFields u fields) "from".toList).getD [] =
      fromFields u fields := getD_groupHeaderFields fields _
  rw [resolveHeaderSequence, resolveFrom, resolveFrom, hname, harr]
  simp only [Assoc.get_nil, Option.getD_none, Nat.zero_add, hone, hcount]
  congr 1
  cases h : fromFields u fields with
  | nil => rfl
  | cons f fs => exact if_pos (Nat.succ_pos _)

theorem resolveFrom_addsFrom (h : AddsFrom u fields fields') {names : List Text}
    (hnames : ∀ n ∈ names, toLowerCase u (trim n) ≠ "from".toList) (consumed : List (Text × Nat)) :
    resolveFrom u (groupHeaderFields u fields') consumed names =
      resolveFrom u (groupHeaderFields u fields) consumed names := by
  obtain ⟨a, b, new, rfl, hnew, rfl⟩ := h
  refine resolveFrom_congr (fun n hn => ?_) consumed
  have hother : ¬ fieldKey u new = toLowerCase u (trim n) := hnew ▸ (hnames n hn).symm
  rw [List.filter_append, List.filter_cons_of_neg (by simpa using hother), List.filter_append]

theorem canonHeaderField_ne_nil (f : HeaderField) (mode : DkimCanonMode) :
    canonHeaderField u f mode ≠ [] := by
  have hcrlf : crlf ≠ [] := by decide
  cases mode with
  | relaxed => exact List.append_ne_nil_of_right_ne_nil _ hcrlf
  | simple => exact List.append_ne_nil_of_right_ne_nil _ hcrlf

theorem hashInput_addsFrom (h : AddsFrom u fields fields') (hone : (fromFields u fields).length = 1)
    {names : List Text} (hnames : ∀ n ∈ names, toLowerCase u (trim n) ≠ "from".toList)
    (field : HeaderField) (mode : DkimCanonMode) :
    hashInput u (resolveHeaderSequence u (groupHeaderFields u fields')
        ("from".toList :: "from".toList :: names)) field mode ≠
      hashInput u (resolveHeaderSequence u (groupHeaderFields u fields)
        ("from".toList :: "from".toList :: names)) field mode := by
  obtain ⟨f, hf⟩ := List.length_eq_one_iff.mp hone
  have hpair : ∃ x y new, fromFields u fields' = [x, y] ∧ (canonHeaderField u x mode).length +
      (canonHeaderField u y mode).length = (canonHeaderField u f mode).length +
        (canonHeaderField u new mode).length := by
    obtain ⟨a, b, new, rfl, hnew, rfl⟩ := h
    rw [fromFields, List.filter_append] at hf
    rw [fromFields, List.filter_append, List.filter_cons_of_pos (by simpa using hnew)]
    rcases List.append_eq_singleton_iff.mp hf with ⟨ha, hb⟩ | ⟨ha, hb⟩
    · exact ⟨new, f, new, by rw [ha, hb, List.nil_append], Nat.add_comm _ _⟩
    · exact ⟨f, new, new, by rw [ha, hb, List.singleton_append], rfl⟩
  obtain ⟨x, y, new, hxy, hlength⟩ := hpair
  have hnew := List.length_pos_iff.mpr (canonHeaderField_ne_nil (u := u) new mode)
  intro heq
  have hlen := congrArg List.length heq
  rw [resolve_twice, resolve_twice, hf, hxy, resolveFrom_addsFrom h hnames] at hlen
  simp [hashInput, latin1Encode, headerHashInput] at hlen
  omega

theorem hashInput_top {new : HeaderField} (hnew : fieldKey u new = "from".toList)
    (htwo : 2 ≤ (fromFields u fields).length) {names : List Text}
    (hnames : ∀ n ∈ names, toLowerCase u (trim n) ≠ "from".toList) (field : HeaderField)
    (mode : DkimCanonMode) :
    hashInput u (resolveHeaderSequence u (groupHeaderFields u (new :: fields))
        ("from".toList :: "from".toList :: names)) field mode =
      hashInput u (resolveHeaderSequence u (groupHeaderFields u fields)
        ("from".toList :: "from".toList :: names)) field mode := by
  have hadds : AddsFrom u fields (new :: fields) := ⟨[], fields, new, rfl, hnew, rfl⟩
  have htop : fromFields u (new :: fields) = new :: fromFields u fields :=
    List.filter_cons_of_pos (by simpa using hnew)
  have hlast : ∀ k, 1 ≤ k → k ≤ 2 → (new :: fromFields u fields)[(fromFields u fields).length + 1 - k]? =
      (fromFields u fields)[(fromFields u fields).length - k]? := by
    intro k hk hk'
    have hindex : (fromFields u fields).length + 1 - k = (fromFields u fields).length - k + 1 := by
      omega
    rw [hindex, List.getElem?_cons_succ]
  have hthree : 2 ≤ (fromFields u fields).length + 1 := Nat.le_succ_of_le htwo
  rw [resolve_twice, resolve_twice, resolveFrom_addsFrom hadds hnames, htop, List.length_cons,
    hlast 1 (by omega) (by omega), hlast 2 (by omega) (by omega), if_pos htwo, if_pos hthree]

def anotherFrom : HeaderField := ⟨"From".toList, "From: x".toList⟩

theorem wellFormed_anotherFrom : WellFormed anotherFrom :=
  ⟨⟨[anotherFrom.raw], ⟨by decide, List.forall_mem_nil _, List.forall_mem_singleton.mpr
    (show ∀ ch ∈ anotherFrom.raw, ch ≠ '\r' ∧ ch ≠ '\n' by decide)⟩, rfl⟩, by decide⟩

theorem noticed_iff {field : HeaderField} {raw : Bytes} (hwf : WellFormed field)
    (hbytes : ∀ ch ∈ field.raw, ch.toNat < 256) (hother : fieldKey u field ≠ "from".toList)
    (hfrom : ∃ f ∈ (readMessage raw).1, fieldKey u f = "from".toList) {names : List Text}
    (hnames : ∀ n ∈ names, toLowerCase u (trim n) ≠ "from".toList) (unsigned : HeaderField)
    (mode : DkimCanonMode) :
    (∀ raw', AddsFrom u (field :: (readMessage raw).1) (readMessage raw').1 →
      hashInput u (resolveHeaderSequence u (groupHeaderFields u (readMessage raw').1)
          ("from".toList :: "from".toList :: names)) unsigned mode ≠
        hashInput u (resolveHeaderSequence u (groupHeaderFields u (field :: (readMessage raw).1))
          ("from".toList :: "from".toList :: names)) unsigned mode) ↔
      (fromFields u (readMessage raw).1).length = 1 := by
  have hfroms : fromFields u (field :: (readMessage raw).1) = fromFields u (readMessage raw).1 :=
    List.filter_cons_of_neg (by simpa using hother)
  constructor
  · intro hall
    by_contra hmany
    obtain ⟨f, hf, hkey⟩ := hfrom
    have hpos : 0 < (fromFields u (readMessage raw).1).length :=
      List.length_pos_of_mem (List.mem_filter.mpr ⟨hf, decide_eq_true hkey⟩)
    have htwo : 2 ≤ (fromFields u (field :: (readMessage raw).1)).length := by
      rw [hfroms]
      omega
    have hnew : fieldKey u anotherFrom = "from".toList :=
      (fieldKey_eq (by decide)).trans (by decide)
    obtain ⟨raw', hraw'⟩ := exists_readMessage (List.cons_ne_nil _ _)
      (List.forall_mem_cons.mpr ⟨wellFormed_anotherFrom,
        List.forall_mem_cons.mpr ⟨hwf, wellFormed_readMessage raw⟩⟩)
      (List.forall_mem_cons.mpr ⟨by decide,
        List.forall_mem_cons.mpr ⟨hbytes, bytes_readMessage raw⟩⟩)
    refine hall raw' ⟨[], _, anotherFrom, rfl, hnew, hraw'⟩ ?_
    rw [hraw', hashInput_top hnew htwo hnames]
  · intro hone raw' hadds
    exact hashInput_addsFrom hadds (hfroms ▸ hone) hnames unsigned mode

theorem wellFormed_fieldWith {ns : List Text} {body tail : Text} (ho : Proper u o)
    (hns : ∀ n ∈ ns, IsListName u n) (htail : Solid tail) (n : Nat) :
    WellFormed (fieldWith c now o ns body (foldSignatureTail n tail)) ∧
      ∀ ch ∈ (fieldWith c now o ns body (foldSignatureTail n tail)).raw, ch.toNat < 256 := by
  obtain ⟨ls, hls, heq⟩ := headerLines_fieldWith c now body ho hns htail n
  refine ⟨⟨⟨ls, hls.folded ls (.head _), heq⟩, toField_fieldWith⟩, fun ch hch => ?_⟩
  rw [heq] at hch
  rcases Pieces.mem_glue hch with rfl | rfl | ⟨l, hl, hmem⟩
  · decide
  · decide
  · exact (hls.ascii l (by simpa using hl) ch hmem).trans (by decide)

theorem dkimSign_ok (hscheme : ∀ data, signDkimData c data o.algorithm o.privateKey ≠ .ok [])
    (hsign : dkimSign c u now raw o = .ok header) :
    (∃ f ∈ (readMessage raw).1, fieldKey u f = "from".toList) ∧
      ∃ signature n, signature ≠ [] ∧ (⟨"DKIM-Signature".toList, header⟩ : HeaderField) =
        fieldWith c now o (signedNames u o (groupHeaderFields u (readMessage raw).1))
          (readMessage raw).2 (foldSignatureTail n (base64Encode signature)) := by
  rw [dkimSign] at hsign
  dsimp only at hsign
  split_ifs at hsign with hfrom
  have hdata := dataToSign_eq c u now o raw
  rw [Option.isNone_iff_eq_none, ← Option.not_isSome_iff_eq_none, not_not,
    isSome_groupHeaderFields] at hfrom
  refine ⟨hfrom, ?_⟩
  cases hsig : signDkimData c (prepareSignature c u now raw o).2 o.algorithm o.privateKey with
  | error err =>
    rw [hsig] at hsign
    cases hsign
  | ok signature =>
    rw [hsig, hdata] at hsign
    dsimp only at hsign
    refine ⟨signature, (unsignedText (signedTags c now o
      (signedNames u o (groupHeaderFields u (readMessage raw).1)) (readMessage raw).2)).length,
      fun hnil => hscheme _ (hnil ▸ hsig), ?_⟩
    rw [← Except.ok.inj hsign, ← raw_fieldWith_append]
    rfl

theorem reconstructed_fieldWith {ns : List Text} {body value : Text} (raw' : Bytes)
    (ho : Proper u o) (hns : ∀ n ∈ ns, IsListName u n) (hfrom : "from".toList ∈ ns)
    (hvalue : ';' ∉ value) (hb : stripFws value ≠ []) :
    reconstructed u raw' (fieldWith c now o ns body value) = some
      (hashInput u (resolveHeaderSequence u (groupHeaderFields u (readMessage raw').1) ns)
        (fieldWith c now o ns body []) o.headerMode) := by
  rw [reconstructed, readSignature_fieldWith ho hns hfrom hvalue hb, ← dataToVerify_fieldWith]

/-- One more From field is noticed exactly in the messages that have one. -/
theorem over_signing (ho : Proper u o)
    (hscheme : ∀ data, signDkimData c data o.algorithm o.privateKey ≠ .ok [])
    (hsign : dkimSign c u now raw o = .ok header) :
    (∀ raw', AddsFrom u (⟨"DKIM-Signature".toList, header⟩ :: (readMessage raw).1)
        (readMessage raw').1 →
      reconstructed u raw' ⟨"DKIM-Signature".toList, header⟩ ≠
        some (prepareSignature c u now raw o).2) ↔
      (fromFields u (readMessage raw).1).length = 1 := by
  obtain ⟨⟨f, hf, hkey⟩, signature, n, hne, hfield⟩ := dkimSign_ok hscheme hsign
  have hnames : ∀ n ∈ signedNames u o (groupHeaderFields u (readMessage raw).1), IsListName u n :=
    isListName_signedNames ho fun f hf => (toField_eq_some (wellFormed_readMessage raw f hf).parsed).2.1
  have hdata := dataToSign_eq c u now o raw
  obtain ⟨rest, hlist, hrest⟩ : ∃ rest, signedNames u o (groupHeaderFields u (readMessage raw).1) =
      "from".toList :: "from".toList :: rest ∧ ∀ n ∈ rest, n ≠ "from".toList := by
    refine ⟨_, rfl, fun n hn => ?_⟩
    have hcond := (List.mem_filter.mp hn).2
    rw [Bool.and_eq_true, decide_eq_true_eq] at hcond
    exact hcond.1
  rw [hlist] at hnames hdata hfield
  have hothers : ∀ n ∈ rest, toLowerCase u (trim n) ≠ "from".toList := by
    intro n hn
    have hname := hnames n (.tail _ (.tail _ hn))
    rw [trim_of_all hname.solid.white, hname.lower]
    exact hrest n hn
  have hb : stripFws (foldSignatureTail n (base64Encode signature)) ≠ [] := by
    rw [stripFws_fold (solid_base64 signature)]
    exact fun hnil => hne (base64Encode_eq_nil.mp hnil)
  have hsemi := notMem_fold (notMem_base64 signature) n
  have hsent : ∀ raw', reconstructed u raw' ⟨"DKIM-Signature".toList, header⟩ = some
      (hashInput u (resolveHeaderSequence u (groupHeaderFields u (readMessage raw').1)
        ("from".toList :: "from".toList :: rest))
        (fieldWith c now o ("from".toList :: "from".toList :: rest) (readMessage raw).2 [])
          o.headerMode) := by
    intro raw'
    rw [hfield, reconstructed_fieldWith raw' ho hnames (.head _) hsemi hb]
  have hsigned := resolve_fieldWith c now o (readMessage raw).2
    (foldSignatureTail n (base64Encode signature)) (readMessage raw).1 hnames
  rw [← hfield] at hsigned
  have hother : fieldKey u ⟨"DKIM-Signature".toList, header⟩ ≠ "from".toList := by
    rw [hfield, fieldKey_fieldWith]
    decide
  have hwf : WellFormed ⟨"DKIM-Signature".toList, header⟩ ∧
      ∀ ch ∈ (⟨"DKIM-Signature".toList, header⟩ : HeaderField).raw, ch.toNat < 256 := by
    rw [hfield]
    exact wellFormed_fieldWith ho hnames (solid_base64 signature) n
  rw [hdata, ← noticed_iff hwf.1 hwf.2 hother ⟨f, hf, hkey⟩ hothers
    (fieldWith c now o ("from".toList :: "from".toList :: rest) (readMessage raw).2 [])
    o.headerMode, hsigned]
  simp only [hsent, ne_eq, Option.some.injEq]

end

def sampleHeader : Text :=
  (dkimSign sampleCrypto sampleCaseMap 1000 sampleMessage sampleOptions).toOption.getD []

theorem over_signing_witness :
    (∀ raw', AddsFrom sampleCaseMap (⟨"DKIM-Signature".toList, sampleHeader⟩ ::
        (readMessage sampleMessage).1) (readMessage raw').1 →
      reconstructed sampleCaseMap raw' ⟨"DKIM-Signature".toList, sampleHeader⟩ ≠
        some (prepareSignature sampleCrypto sampleCaseMap 1000 sampleMessage sampleOptions).2) ↔
      (fromFields sampleCaseMap (readMessage sampleMessage).1).length = 1 := by
  have hscheme : ∀ data, signDkimData sampleCrypto data .ed25519Sha256 [] ≠ .ok [] := by
    simp [signDkimData, sampleCrypto]
  exact over_signing ⟨by decide +kernel, by decide +kernel, by decide +kernel⟩ hscheme
    (by decide +kernel)

def twoFroms : Bytes :=
  latin1Encode "From: a@example.com\r\nFrom: b@example.com\r\n\r\nhi\r\n".toList

def twoFromsHeader : Text :=
  (dkimSign sampleCrypto sampleCaseMap 1000 twoFroms sampleOptions).toOption.getD []

/-- With a third one on top, the signature of the two is reconstructed. -/
theorem over_signing_fails : ¬ ∀ (raw raw' : Bytes) (header : Text),
    dkimSign sampleCrypto sampleCaseMap 1000 raw sampleOptions = .ok header →
      AddsFrom sampleCaseMap (readMessage (prependHeader raw header)).1 (readMessage raw').1 →
        reconstructed sampleCaseMap raw' ⟨"DKIM-Signature".toList, header⟩ ≠
          some (prepareSignature sampleCrypto sampleCaseMap 1000 raw sampleOptions).2 := by
  intro h
  have hsign : dkimSign sampleCrypto sampleCaseMap 1000 twoFroms sampleOptions =
      .ok twoFromsHeader := by decide +kernel
  have hread : (readMessage (prependHeader (prependHeader twoFroms twoFromsHeader)
      anotherFrom.raw)).1 = anotherFrom :: (readMessage (prependHeader twoFroms twoFromsHeader)).1 := by
    decide +kernel
  have hinput : reconstructed sampleCaseMap (prependHeader (prependHeader twoFroms twoFromsHeader)
      anotherFrom.raw) ⟨"DKIM-Signature".toList, twoFromsHeader⟩ =
        some (prepareSignature sampleCrypto sampleCaseMap 1000 twoFroms sampleOptions).2 := by
    decide +kernel
  have hkey : fieldKey sampleCaseMap anotherFrom = "from".toList :=
    (fieldKey_eq (by decide)).trans (by decide)
  exact h twoFroms _ twoFromsHeader hsign
    ⟨[], _, anotherFrom, (List.nil_append _).symm, hkey, hread⟩ hinput

end Ionosphere.MailAuth
