import Ionosphere.MailAuth.ArcFields

/-! Hop after hop seals a message, and the chain it ends up with passes. -/
namespace Ionosphere.MailAuth

open Ionosphere.Js Ionosphere.Core Ionosphere.Lib

variable {signature : Bytes} {name : String} {v : Text} {m : Nat}

/-- A domain or selector: printable, without what separates tags. -/
def IsArcName (s : Text) : Prop := IsTagSafe s ∧ '=' ∉ s

instance (s : Text) : Decidable (IsArcName s) := inferInstanceAs (Decidable (_ ∧ _))

structure SealOk (o : ArcSealOptions) : Prop where
  domain : IsArcName o.domain
  selector : IsArcName o.selector
  /-- A single line of ASCII. -/
  results : ∀ ch ∈ o.authResults, ch.toNat < 128 ∧ ch ≠ '\r' ∧ ch ≠ '\n'
  /-- The default list. -/
  headers : o.signedHeaders = none

/-- The strings of a key record with this key, as the chain reads them. -/
structure ArcPublishes (u : CaseMap) (algorithm : DkimAlgorithm) (publicKey : Bytes)
    (records : List Text) : Prop where
  keyType : ∀ k, matchTag 'k' (pickRun isKeyTypeChar) records.flatten = some k →
    toLowerCase u k = algorithm.keyType
  key : ∃ p, matchTag 'p' (fun s => some (s.takeWhile isKeyChar)) records.flatten = some p ∧
    stripWhite p ≠ [] ∧ base64Lenient (stripWhite p) = publicKey

section

variable {u : CaseMap} {base : List HeaderField} {sets : List FullSet} {i : Option Nat}

/-- What the hops put in front of the message, the newest on top. -/
def hopFields (sets : List FullSet) : List HeaderField :=
  sets.reverse.flatMap fun s => [s.sealField, s.ams, s.aar]

theorem hopFields_concat (sets : List FullSet) (s : FullSet) :
    hopFields (sets ++ [s]) = s.sealField :: s.ams :: s.aar :: hopFields sets := by
  rw [hopFields, List.reverse_append]
  rfl

/-- The fields of a set, and the instance they are found under. -/
structure Numbered (u : CaseMap) (sets : List FullSet) : Prop where
  kind : ∀ s ∈ sets, ∀ kind, arcKind u (s.part kind) = some kind
  inst : ∀ k s, sets[k]? = some s → ∀ kind, instanceOf (s.part kind) = some (some (k + 1))

theorem numbered_concat {s : FullSet} : Numbered u (sets ++ [s]) ↔ Numbered u sets ∧
    ∀ kind, arcKind u (s.part kind) = some kind ∧
      instanceOf (s.part kind) = some (some (sets.length + 1)) := by
  constructor
  · intro h
    refine ⟨⟨fun x hx => h.kind x (List.mem_append_left _ hx), fun k x hk => h.inst k x ?_⟩,
      fun kind => ⟨h.kind s (by simp) kind, h.inst sets.length s (by simp) kind⟩⟩
    rw [List.getElem?_append_left (List.getElem?_eq_some_iff.mp hk).1]
    exact hk
  · rintro ⟨h, hs⟩
    refine ⟨fun x hx kind => ?_, fun k x hk kind => ?_⟩
    · rcases List.mem_append.mp hx with hold | hnew
      · exact h.kind x hold kind
      · rw [List.mem_singleton.mp hnew]
        exact (hs kind).1
    · rcases Nat.lt_trichotomy k sets.length with hlt | rfl | hgt
      · rw [List.getElem?_append_left hlt] at hk
        exact h.inst k x hk kind
      · rw [List.getElem?_concat_length] at hk
        rw [← Option.some.inj hk]
        exact (hs kind).2
      · rw [List.getElem?_eq_none (by rw [List.length_append, List.length_singleton]; omega)] at hk
        cases hk

theorem foldl_addArc_cons {fields : List HeaderField} {s : ArcSet}
    (h : ∀ f ∈ fields, ∀ kind, arcKind u f = some kind → instanceOf f ≠ some i)
    (acc : List (Option Nat × ArcSet)) :
    fields.foldl (addArc u) ((i, s) :: acc) = (i, s) :: fields.foldl (addArc u) acc := by
  induction fields generalizing acc with
  | nil => rfl
  | cons f fields ih =>
    obtain ⟨hf, hfields⟩ := List.forall_mem_cons.mp h
    have hstep : addArc u ((i, s) :: acc) f = (i, s) :: addArc u acc f := by
      rcases addArc_cases (u := u) f with ⟨kind, j, hkind, hinst, hj⟩ | hother
      · have hij : i ≠ j := fun hij => hf kind hkind (hij ▸ hinst)
        rw [addArc_eq _ hkind hinst hj, addArc_eq _ hkind hinst hj, Assoc.set, if_neg hij,
          Assoc.get, if_neg hij]
      · rw [addArc_other _ hother, addArc_other _ hother]
    rw [List.foldl_cons, List.foldl_cons, hstep, ih hfields]

theorem instanceLe_insertionSort {s : ArcSet} {l : List ArcSet}
    (h : ∀ x ∈ l, ¬ instanceLe s.inst x.inst) :
    List.orderedInsert (fun a b : ArcSet => instanceLe a.inst b.inst) s l = l ++ [s] := by
  induction l with
  | nil => rfl
  | cons x l ih =>
    obtain ⟨hx, hl⟩ := List.forall_mem_cons.mp h
    rw [List.orderedInsert, if_neg hx, ih hl]
    rfl

theorem inst_hopFields (h : Numbered u sets) : ∀ f ∈ hopFields sets, ∃ k, k < sets.length ∧
    instanceOf f = some (some (k + 1)) := by
  intro f hf
  obtain ⟨s, hs, hmem⟩ := List.mem_flatMap.mp hf
  obtain ⟨k, hk⟩ := List.getElem?_of_mem (List.mem_reverse.mp hs)
  refine ⟨k, (List.getElem?_eq_some_iff.mp hk).1, ?_⟩
  simp only [List.mem_cons, List.not_mem_nil, or_false] at hmem
  rcases hmem with rfl | rfl | rfl
  · exact h.inst k s hk .seal
  · exact h.inst k s hk .ams
  · exact h.inst k s hk .aar

theorem chainOf_hopFields (hbase : ∀ f ∈ base, arcKind u f = none) (h : Numbered u sets) :
    chainOf u (hopFields sets ++ base) = (sets.zipIdx 1).map fun p => p.1.toSet p.2 := by
  induction sets using List.reverseRecOn with
  | nil =>
    have hnone : ∀ fields : List HeaderField, (∀ f ∈ fields, arcKind u f = none) →
        fields.foldl (addArc u) [] = [] := by
      intro fields hfields
      induction fields with
      | nil => rfl
      | cons f fields ih =>
        obtain ⟨hf, hrest⟩ := List.forall_mem_cons.mp hfields
        rw [List.foldl_cons, addArc_other [] fun kind i hkind => by simp [hf] at hkind, ih hrest]
    rw [chainOf]
    exact congrArg _ (congrArg (List.map Prod.snd) (hnone base hbase))
  | append_singleton sets s ih =>
    obtain ⟨hold, hnew⟩ := numbered_concat.mp h
    have hne : some (sets.length + 1) ≠ some 0 := by simp
    have hfirst : addArc u (addArc u (addArc u [] s.sealField) s.ams) s.aar =
        [(some (sets.length + 1), s.toSet (sets.length + 1))] := by
      have hstep : ∀ acc kind, addArc u acc (s.part kind) = Assoc.set acc (some (sets.length + 1))
          (((Assoc.get acc (some (sets.length + 1))).getD { inst := some (sets.length + 1) }).put
            (s.part kind) kind) :=
        fun acc kind => addArc_eq acc (hnew kind).1 (hnew kind).2 hne
      change addArc u (addArc u (addArc u [] (s.part .seal)) (s.part .ams)) (s.part .aar) = _
      rw [hstep, hstep, hstep]
      simp [Assoc.set, Assoc.get, ArcSet.put, FullSet.part, FullSet.toSet]
    have hrest : ∀ f ∈ hopFields sets ++ base, ∀ kind, arcKind u f = some kind →
        instanceOf f ≠ some (some (sets.length + 1)) := by
      refine List.forall_mem_append.mpr ⟨fun f hf kind _ heq => ?_, fun f hf kind hkind => ?_⟩
      · obtain ⟨k, hk, hinst⟩ := inst_hopFields hold f hf
        have hkl := Option.some.inj (Option.some.inj (hinst.symm.trans heq))
        omega
      · rw [hbase f hf] at hkind
        cases hkind
    have hchain := ih hold
    rw [chainOf] at hchain
    rw [chainOf, hopFields_concat, List.cons_append, List.cons_append, List.cons_append,
      List.foldl_cons, List.foldl_cons, List.foldl_cons, hfirst, foldl_addArc_cons hrest,
      List.map_cons, List.insertionSort_cons, hchain, instanceLe_insertionSort, List.zipIdx_append,
      List.map_append]
    · rw [List.zipIdx_singleton, Nat.add_comm]
      rfl
    · intro x hx
      obtain ⟨⟨full, j⟩, hfull, rfl⟩ := List.mem_map.mp hx
      have hj := (List.mem_zipIdx hfull).2.1
      simp only [FullSet.toSet, instanceLe, decide_eq_true_eq]
      omega

theorem maxInstance_zipIdx (sets : List FullSet) :
    maxInstance ((sets.zipIdx 1).map fun p => p.1.toSet p.2) = some sets.length := by
  induction sets using List.reverseRecOn with
  | nil => rfl
  | append_singleton sets s ih =>
    rw [maxInstance] at ih
    rw [maxInstance, List.zipIdx_append, List.map_append, List.foldl_append, ih]
    simp [FullSet.toSet, instanceLe, Nat.add_comm]

end

section

variable {K : Type} {c : Crypto K} {u : CaseMap} {o : ArcSealOptions} {ns : List Text} {body : Text}
  {n t : Nat} {cv : ArcCv} {resolveTxt : Text → Except Text (List Text)} {raw : Bytes}

/-- The tags before `b=`. -/
def amsFront (c : Crypto K) (n t : Nat) (o : ArcSealOptions) (ns : List Text) (body : Text) :
    List (Text × Text) :=
  [("i".toList, natText n), ("a".toList, o.algorithm.text), ("c".toList, "relaxed/relaxed".toList),
    ("d".toList, o.domain), ("s".toList, o.selector), ("t".toList, natText t),
    ("h".toList, join [':'] ns),
    ("bh".toList, base64Encode (sha256Text c (canonBody body .relaxed)))]

def sealFront (n t : Nat) (cv : ArcCv) (o : ArcSealOptions) : List (Text × Text) :=
  [("i".toList, natText n), ("a".toList, o.algorithm.text), ("t".toList, natText t),
    ("cv".toList, cv.text), ("d".toList, o.domain), ("s".toList, o.selector)]

theorem amsTags_eq : amsTags c (natText n) t o ns body =
    amsFront c n t o ns body ++ [("b".toList, [])] := rfl

theorem sealTags_eq : sealTags (natText n) t cv o = sealFront n t cv o ++ [("b".toList, [])] := rfl

theorem default_names : ∀ n ∈ defaultSignedHeaders, n ≠ [] ∧ n.all isAscii ∧
    n.map asciiLower = n ∧ (∀ ch ∈ n, 33 ≤ ch.toNat ∧ ch.toNat ≤ 126) ∧
      ';' ∉ n ∧ ':' ∉ n ∧ '=' ∉ n := by
  decide

theorem isArcTag_of (hname : IsTagName name.toList)
    (hlast : name.toList.getLast? ≠ some 'b') (hsolid : Solid v) (hsemi : ';' ∉ v)
    (hno : NoB false v) : IsArcTag (name.toList, v) :=
  ⟨⟨⟨hname, hsemi⟩, hsolid⟩, noB_tag (notMem_tagName hname (by decide)) hlast hno⟩

theorem natText_chars (n : Nat) : Solid (natText n) ∧ ';' ∉ natText n ∧ '=' ∉ natText n := by
  have hdigits := natText_digits n
  refine ⟨fun c hc => ?_, fun hmem => ?_, fun hmem => ?_⟩
  · have hrange := hdigits c hc
    omega
  · exact absurd (hdigits _ hmem).2 (by decide)
  · exact absurd (hdigits _ hmem).2 (by decide)

theorem IsArcName.chars {s : Text} (h : IsArcName s) : Solid s ∧ ';' ∉ s ∧ '=' ∉ s :=
  ⟨fun c hc => ⟨(h.1.2 c hc).1, (h.1.2 c hc).2.1⟩, fun hmem => (h.1.2 _ hmem).2.2 rfl, h.2⟩

theorem fixed_chars (a : DkimAlgorithm) (cv : ArcCv) :
    ((∀ ch ∈ a.text, 33 ≤ ch.toNat ∧ ch.toNat ≤ 126) ∧ ';' ∉ a.text ∧ '=' ∉ a.text) ∧
      (∀ ch ∈ cv.text, 33 ≤ ch.toNat ∧ ch.toNat ≤ 126) ∧ ';' ∉ cv.text ∧ '=' ∉ cv.text := by
  cases a <;> cases cv <;> decide

theorem join_chars (hns : ∀ n ∈ ns, n ∈ defaultSignedHeaders) :
    Solid (join [':'] ns) ∧ ';' ∉ join [':'] ns ∧ '=' ∉ join [':'] ns := by
  have hall := fun n hn => default_names n (hns n hn)
  refine ⟨solid_join fun n hn => (hall n hn).2.2.2.1, fun hmem => ?_, fun hmem => ?_⟩
  · rcases mem_join hmem with heq | ⟨n, hn, hmem⟩
    · exact absurd heq (by decide)
    · exact (hall n hn).2.2.2.2.1 hmem
  · rcases mem_join hmem with heq | ⟨n, hn, hmem⟩
    · exact absurd heq (by decide)
    · exact (hall n hn).2.2.2.2.2.2 hmem

theorem isArcTag_plain (hname : IsTagName name.toList)
    (hlast : name.toList.getLast? ≠ some 'b') (hv : Solid v ∧ ';' ∉ v ∧ '=' ∉ v) :
    IsArcTag (name.toList, v) :=
  isArcTag_of hname hlast hv.1 hv.2.1 (noB_of_notMem hv.2.2)

variable (c n t body) in
theorem isArcTag_amsFront (ho : SealOk o) (hns : ∀ n ∈ ns, n ∈ defaultSignedHeaders) :
    ∀ p ∈ amsFront c n t o ns body, IsArcTag p := by
  have hc : ∀ ch ∈ "relaxed/relaxed".toList, 33 ≤ ch.toNat ∧ ch.toNat ≤ 126 := by decide
  simp only [amsFront, List.forall_mem_cons]
  refine ⟨isArcTag_plain (by decide) (by decide) (natText_chars n),
    isArcTag_plain (by decide) (by decide) (fixed_chars o.algorithm .none).1,
    isArcTag_plain (by decide) (by decide) ⟨hc, by decide, by decide⟩,
    isArcTag_plain (by decide) (by decide) ho.domain.chars,
    isArcTag_plain (by decide) (by decide) ho.selector.chars,
    isArcTag_plain (by decide) (by decide) (natText_chars t),
    isArcTag_plain (by decide) (by decide) (join_chars hns),
    isArcTag_of (by decide) (by decide) (solid_base64 _) (notMem_base64 _) (noB_base64 _),
    List.forall_mem_nil _⟩

variable (n t cv) in
theorem isArcTag_sealFront (ho : SealOk o) : ∀ p ∈ sealFront n t cv o, IsArcTag p := by
  simp only [sealFront, List.forall_mem_cons]
  exact ⟨isArcTag_plain (by decide) (by decide) (natText_chars n),
    isArcTag_plain (by decide) (by decide) (fixed_chars o.algorithm .none).1,
    isArcTag_plain (by decide) (by decide) (natText_chars t),
    isArcTag_plain (by decide) (by decide) (fixed_chars o.algorithm cv).2,
    isArcTag_plain (by decide) (by decide) ho.domain.chars,
    isArcTag_plain (by decide) (by decide) ho.selector.chars, List.forall_mem_nil _⟩

theorem verifySig_pass {domain selector b : Text} {algorithm : DkimAlgorithm}
    {publicKey data signature : Bytes} {key : K} {records : List Text}
    (hresolve : resolveTxt (selector ++ "._domainkey.".toList ++ domain) = .ok records)
    (hpub : ArcPublishes u algorithm publicKey records)
    (hkey : dkimPublicKey c publicKey algorithm = .ok key)
    (hverify : verifyDkimData c data algorithm key signature = .ok true)
    (hb : stripWhite b = base64Encode signature) :
    verifySig c u resolveTxt data b domain selector algorithm.text = .ok none := by
  have hkeyAlgorithm : keyAlgorithm algorithm.text = algorithm := by cases algorithm <;> decide
  have hcheck : checkAlgorithm algorithm.text = algorithm := by cases algorithm <;> decide
  have himport : publicKeyFromTxt.importKey c algorithm.text records.flatten = some key := by
    obtain ⟨p, hp, hne, hbytes⟩ := hpub.key
    rw [publicKeyFromTxt.importKey, hp]
    dsimp only
    rw [if_neg hne, hbytes, hkeyAlgorithm, hkey]
    rfl
  have hpublic : publicKeyFromTxt c u records algorithm.text = some key := by
    rw [publicKeyFromTxt]
    cases hk : matchTag 'k' (pickRun isKeyTypeChar) records.flatten with
    | none => exact himport
    | some k =>
      dsimp only
      rw [hkeyAlgorithm, if_neg (not_not.mpr (hpub.keyType k hk)), himport]
  rw [verifySig, hresolve]
  dsimp only
  rw [hpublic]
  dsimp only
  rw [hcheck, hb, base64Lenient_encode, hverify]
  rfl

/-- A written field with a signature folded into its `b=`. -/
def signedField (kind : ArcKind) (front : List (Text × Text)) (m : Nat) (signature : Bytes) :
    HeaderField :=
  ⟨kind.name, tagRaw kind.name front (foldSignatureTail m (base64Encode signature))⟩

theorem joined_signature (m : Nat) (signature : Bytes) :
    (∀ ch ∈ joined (foldSignatureTail m (base64Encode signature)),
      ch ≠ ';' ∧ ch ≠ '\r' ∧ ch ≠ '\n') ∧
      ';' ∉ joined (foldSignatureTail m (base64Encode signature)) := by
  have hchars := joined_fold_chars (solid_base64 signature) (notMem_base64 signature) m
  exact ⟨hchars, fun hmem => (hchars _ hmem).1 rfl⟩

section

variable {kind : ArcKind} {front : List (Text × Text)} {m : Nat} {signature : Bytes}
  (hfront : ∀ p ∈ front, IsArcTag p)
  (hnodup : ((front ++ [(['b'], ([] : Text))]).map Prod.fst).Nodup)

include hfront hnodup

theorem getTag_signedField (hp : (name.toList, v) ∈ front) :
    getTag (parseTags u (signedField kind front m signature)) name = v := by
  have hnames : ((front ++ [(['b'], joined (foldSignatureTail m (base64Encode signature)))]).map
      Prod.fst).Nodup := by simpa using hnodup
  rw [signedField, getTag_tagRaw kind hfront (joined_signature m signature).2 hnames _
    (List.mem_append_left _ hp), trim_of_all (hfront _ hp).solid.white]

variable (u kind m signature o) in
theorem signer_tags (ha : ("a".toList, o.algorithm.text) ∈ front) (hd : ("d".toList, o.domain) ∈ front)
    (hs : ("s".toList, o.selector) ∈ front) :
    getTag (parseTags u (signedField kind front m signature)) "a" = o.algorithm.text ∧
      getTag (parseTags u (signedField kind front m signature)) "d" = o.domain ∧
      getTag (parseTags u (signedField kind front m signature)) "s" = o.selector :=
  ⟨getTag_signedField hfront hnodup ha, getTag_signedField hfront hnodup hd,
    getTag_signedField hfront hnodup hs⟩

theorem getTag_signedField_b :
    stripWhite (getTag (parseTags u (signedField kind front m signature)) "b") =
      base64Encode signature := by
  have hnames : ((front ++ [(['b'], joined (foldSignatureTail m (base64Encode signature)))]).map
      Prod.fst).Nodup := by simpa using hnodup
  have hb : ("b".toList, joined (foldSignatureTail m (base64Encode signature))) ∈
      front ++ [(['b'], joined (foldSignatureTail m (base64Encode signature)))] := by simp
  rw [signedField, getTag_tagRaw kind hfront (joined_signature m signature).2 hnames _ hb,
    stripWhite_trim, stripWhite_joined_fold (solid_base64 signature)]

omit hnodup in
theorem blankB_signedField (hne : front ≠ []) :
    blankB (canonHeaderField u (signedField kind front m signature) .relaxed) =
      canonHeaderField u ⟨kind.name, tagRaw kind.name front []⟩ .relaxed :=
  blankB_tagRaw kind hne hfront (joined_signature m signature).1 _

end

theorem splitOn_join (hne : ns ≠ []) (hns : ∀ n ∈ ns, n ∈ defaultSignedHeaders) :
    ((join [':'] ns).splitOn ':').map (fun n => toLowerCase u (trim n)) = ns := by
  have hall := fun n hn => default_names n (hns n hn)
  rw [join, List.splitOn_intercalate ':' (fun n hn => (hall n hn).2.2.2.2.2.1) hne]
  refine (List.map_congr_left fun n hn => ?_).trans (List.map_id ns)
  obtain ⟨-, hascii, hlower, hsolid, -⟩ := hall n hn
  rw [trim_of_all (Solid.white hsolid), toLowerCase, if_pos hascii, hlower]
  rfl

theorem algorithm_ne_nil (a : DkimAlgorithm) : a.text ≠ [] := by cases a <;> decide

theorem join_ne_nil (hne : ns ≠ []) (hns : ∀ n ∈ ns, n ∈ defaultSignedHeaders) :
    join [':'] ns ≠ [] := by
  obtain ⟨n, rest, rfl⟩ := List.exists_cons_of_ne_nil hne
  have hn := (default_names n (hns n (.head _))).1
  by_cases hnil : rest = []
  · rw [hnil, join, List.intercalate_singleton]
    exact hn
  · rw [join, List.intercalate_cons_of_ne_nil hnil, List.append_assoc]
    exact List.append_ne_nil_of_left_ne_nil hn _

/-- The published key of a hop, and a signature it made. -/
structure Signed (c : Crypto K) (u : CaseMap) (resolveTxt : Text → Except Text (List Text))
    (o : ArcSealOptions) (data signature : Bytes) : Prop where
  ne_nil : signature ≠ []
  verifies : ∃ records publicKey key,
    resolveTxt (o.selector ++ "._domainkey.".toList ++ o.domain) = .ok records ∧
      ArcPublishes u o.algorithm publicKey records ∧
      dkimPublicKey c publicKey o.algorithm = .ok key ∧
      verifyDkimData c data o.algorithm key signature = .ok true

theorem Signed.verifySig {data signature : Bytes} {b : Text}
    (h : Signed c u resolveTxt o data signature) (hb : stripWhite b = base64Encode signature) :
    verifySig c u resolveTxt data b o.domain o.selector o.algorithm.text = .ok none := by
  obtain ⟨records, publicKey, key, hresolve, hpub, hkey, hverify⟩ := h.verifies
  exact verifySig_pass hresolve hpub hkey hverify hb

theorem ne_nil_of_stripWhite {b : Text} (hsig : signature ≠ [])
    (h : stripWhite b = base64Encode signature) : b ≠ [] := by
  rintro rfl
  exact hsig (base64Encode_eq_nil.mp h.symm)

theorem verifyAms_signed (ho : SealOk o) (hne : ns ≠ [])
    (hns : ∀ n ∈ ns, n ∈ defaultSignedHeaders) (hbody : (readMessage raw).2 = body)
    {ams : HeaderField} (hams : ams = signedField .ams (amsFront c n t o ns body) m signature)
    (hsigned : Signed c u resolveTxt o (amsInput u (groupHeaderFields u (readMessage raw).1) ns
      (canonHeaderField u ⟨ArcKind.ams.name, tagRaw ArcKind.ams.name (amsFront c n t o ns body) []⟩
        .relaxed)) signature) :
    verifyAms c u resolveTxt raw ams = .ok none := by
  subst hams
  have hfront := isArcTag_amsFront c body n t ho hns
  have hnodup : ((amsFront c n t o ns body ++ [(['b'], ([] : Text))]).map Prod.fst).Nodup :=
    show ["i".toList, "a".toList, "c".toList, "d".toList, "s".toList, "t".toList, "h".toList,
      "bh".toList, ['b']].Nodup by decide
  have htag : ∀ {name : String} {v : Text}, (name.toList, v) ∈ amsFront c n t o ns body →
      getTag (parseTags u (signedField .ams (amsFront c n t o ns body) m signature)) name = v :=
    fun hp => getTag_signedField hfront hnodup hp
  obtain ⟨ha, hd, hs⟩ := signer_tags u o .ams m signature hfront hnodup
    (by simp [amsFront]) (by simp [amsFront]) (by simp [amsFront])
  have hbh : getTag (parseTags u (signedField .ams (amsFront c n t o ns body) m signature)) "bh" =
      base64Encode (sha256Text c (canonBody body .relaxed)) := htag (by simp [amsFront])
  have hh : getTag (parseTags u (signedField .ams (amsFront c n t o ns body) m signature)) "h" =
      join [':'] ns := htag (by simp [amsFront])
  have hb : stripWhite (getTag (parseTags u
      (signedField .ams (amsFront c n t o ns body) m signature)) "b") = base64Encode signature :=
    getTag_signedField_b hfront hnodup
  have hdigest : base64Encode (sha256Text c (canonBody body .relaxed)) ≠ [] := by
    intro hnil
    have hlength := c.sha256_length (latin1Encode (canonBody body .relaxed))
    rw [sha256Text] at hnil
    rw [base64Encode_eq_nil.mp hnil] at hlength
    cases hlength
  have hpresent : ¬ (o.domain = [] ∨ o.selector = [] ∨ o.algorithm.text = [] ∨
      base64Encode (sha256Text c (canonBody body .relaxed)) = [] ∨
      getTag (parseTags u (signedField .ams (amsFront c n t o ns body) m signature)) "b" = [] ∨
      join [':'] ns = []) := by
    simp only [not_or]
    exact ⟨ho.domain.1.1, ho.selector.1.1, algorithm_ne_nil _, hdigest,
      ne_nil_of_stripWhite hsigned.ne_nil hb, join_ne_nil hne hns⟩
  rw [verifyAms]
  dsimp only
  rw [hd, hs, ha, hbh, hh, if_neg hpresent, hbody, if_neg (not_not.mpr rfl), splitOn_join hne hns,
    blankB_signedField hfront (List.cons_ne_nil _ _)]
  exact hsigned.verifySig hb

theorem verifySeal_signed (ho : SealOk o) {prior : List FullSet}
    {aar ams : HeaderField}
    (hsigned : Signed c u resolveTxt o (latin1Encode (buildSealInput u
      (prior.flatMap FullSet.fields) aar ams
        ⟨ArcKind.seal.name, tagRaw ArcKind.seal.name (sealFront n t cv o) []⟩)) signature) :
    verifySeal c u resolveTxt prior
      ⟨aar, ams, signedField .seal (sealFront n t cv o) m signature⟩ = .ok none := by
  have hfront := isArcTag_sealFront n t cv ho
  have hnodup : ((sealFront n t cv o ++ [(['b'], ([] : Text))]).map Prod.fst).Nodup :=
    show ["i".toList, "a".toList, "t".toList, "cv".toList, "d".toList, "s".toList, ['b']].Nodup by
      decide
  obtain ⟨ha, hd, hs⟩ := signer_tags u o .seal m signature hfront hnodup
    (by simp [sealFront]) (by simp [sealFront]) (by simp [sealFront])
  have hb : stripWhite (getTag (parseTags u
      (signedField .seal (sealFront n t cv o) m signature)) "b") = base64Encode signature :=
    getTag_signedField_b hfront hnodup
  have hpresent : ¬ (o.domain = [] ∨ o.selector = [] ∨ o.algorithm.text = [] ∨
      getTag (parseTags u (signedField .seal (sealFront n t cv o) m signature)) "b" = []) := by
    simp only [not_or]
    exact ⟨ho.domain.1.1, ho.selector.1.1, algorithm_ne_nil _,
      ne_nil_of_stripWhite hsigned.ne_nil hb⟩
  have hinput : buildSealInput u (prior.flatMap FullSet.fields) aar ams
      (signedField .seal (sealFront n t cv o) m signature) =
        buildSealInput u (prior.flatMap FullSet.fields) aar ams
          ⟨ArcKind.seal.name, tagRaw ArcKind.seal.name (sealFront n t cv o) []⟩ := by
    have hblank : ∀ ch ∈ joined [], ch ≠ ';' ∧ ch ≠ '\r' ∧ ch ≠ '\n' := List.forall_mem_nil _
    have hne : sealFront n t cv o ≠ [] := List.cons_ne_nil _ _
    rw [buildSealInput, buildSealInput, blankB_signedField hfront hne,
      blankB_tagRaw .seal hne hfront hblank]
  rw [verifySeal]
  dsimp only
  rw [hd, hs, ha, if_neg hpresent, hinput]
  exact hsigned.verifySig hb

def aarField (n : Nat) (o : ArcSealOptions) : HeaderField :=
  ⟨ArcKind.aar.name,
    ArcKind.aar.name ++ ": i=".toList ++ natText n ++ "; ".toList ++ o.authResults⟩

theorem raw_aarField (n : Nat) (o : ArcSealOptions) : (aarField n o).raw =
    ArcKind.aar.name ++ ':' :: ' ' :: 'i' :: '=' :: (natText n ++ ';' :: ' ' :: o.authResults) := by
  have hi : ": i=".toList = [':', ' ', 'i', '='] := by decide
  have hsep : "; ".toList = [';', ' '] := by decide
  rw [aarField, hi, hsep]
  simp

theorem instanceOf_aarField (hn : n ≤ 2 ^ 53) : instanceOf (aarField n o) = some (some n) := by
  have h := instanceOf_first hn (name_chars .aar).1 (' ' :: o.authResults) ArcKind.aar.name
  rwa [← raw_aarField] at h

theorem instanceOf_signedField {kind : ArcKind} {rest : List (Text × Text)} (hn : n ≤ 2 ^ 53) :
    instanceOf (signedField kind (("i".toList, natText n) :: rest) m signature) =
      some (some n) := by
  have hi : "i".toList = ['i'] := by decide
  rw [signedField, tagRaw, List.cons_append, tagText_cons (by simp), hi, segmentText]
  have h := instanceOf_first hn (name_chars kind).1
    (tagText (rest ++ [(['b'], foldSignatureTail m (base64Encode signature))])) kind.name
  simpa using h

theorem join_crlf (xs : List Text) : join crlf xs = Pieces.glue '\r' '\n' xs := by
  induction xs with
  | nil => rfl
  | cons x xs ih =>
    by_cases hnil : xs = []
    · rw [hnil, join, List.intercalate_singleton]
      rfl
    · rw [join, List.intercalate_cons_of_ne_nil hnil, ← join, ih, Pieces.glue_cons hnil,
        List.append_assoc]
      rfl

theorem HeaderLines.cons {ls : List Text} {rs : List (List Text)} (h : HeaderLines [ls])
    (hrs : HeaderLines rs) : HeaderLines (ls :: rs) := by
  have hlines := h.lines
  have hascii := h.ascii
  rw [List.flatten_singleton] at hlines hascii
  refine ⟨List.cons_ne_nil _ _, List.forall_mem_cons.mpr ⟨h.folded ls (.head _), hrs.folded⟩, ?_, ?_⟩
  · rw [List.flatten_cons]
    exact List.forall_mem_append.mpr ⟨hlines, hrs.lines⟩
  · rw [List.flatten_cons]
    exact List.forall_mem_append.mpr ⟨hascii, hrs.ascii⟩

theorem linesOf_prepend {rs : List (List Text)} (hrs : HeaderLines rs) (raw : Bytes) :
    linesOf (prependHeader raw (Pieces.glue '\r' '\n' rs.flatten)) = rs.flatten ++ linesOf raw := by
  rw [linesOf, normalize_prepend hrs, Pieces.split_append (by decide),
    Pieces.split_glue (by decide) (flatten_ne_nil hrs.folded hrs.ne_nil)
      fun l hl => (plain_flatten hrs.folded l hl).notMem]
  rfl

theorem notContinuation_name (kind : ArcKind) (s : Text) :
    isContinuation (kind.name ++ s) = false := by
  cases kind <;> rfl

theorem name_printable (kind : ArcKind) : ∀ ch ∈ kind.name, 32 ≤ ch.toNat ∧ ch.toNat ≤ 126 := by
  cases kind <;> decide

theorem headerLines_signedField (kind : ArcKind) {front : List (Text × Text)}
    (hfront : ∀ p ∈ front, IsArcTag p) (m : Nat) (signature : Bytes) :
    ∃ s ls, HeaderLines [(kind.name ++ ':' :: s) :: ls] ∧
      (signedField kind front m signature).raw =
        Pieces.glue '\r' '\n' ((kind.name ++ ':' :: s) :: ls) := by
  have hprint : ∀ ch ∈ tagRaw kind.name front [], 32 ≤ ch.toNat ∧ ch.toNat ≤ 126 :=
    List.forall_mem_append.mpr ⟨name_printable kind,
      List.forall_mem_cons.mpr ⟨by decide, printable_tagText hfront⟩⟩
  have hne : tagRaw kind.name front [] ≠ [] := by
    rw [tagRaw]
    exact List.append_ne_nil_of_right_ne_nil _ (List.cons_ne_nil _ _)
  obtain ⟨chunk, chunks, hlines, heq⟩ := headerLines_fold hne hprint (notContinuation_name kind _)
    (solid_base64 signature) m
  have hhead : tagRaw kind.name front [] ++ chunk =
      kind.name ++ ':' :: (tagText (front ++ [(['b'], [])]) ++ chunk) := by
    rw [tagRaw, List.append_assoc]
    rfl
  rw [hhead] at hlines heq
  exact ⟨_, chunks, hlines, by rw [signedField, tagRaw_append, heq]⟩

theorem headerLines_aarField (ho : SealOk o) (n : Nat) : HeaderLines [[(aarField n o).raw]] := by
  have hname : ∀ ch ∈ ArcKind.aar.name ++ [':', ' ', 'i', '='],
      ch.toNat < 128 ∧ ch ≠ '\r' ∧ ch ≠ '\n' := by decide
  have hdigits : ∀ ch ∈ natText n, ch.toNat < 128 ∧ ch ≠ '\r' ∧ ch ≠ '\n' := by
    intro ch hch
    have hrange := natText_digits n ch hch
    refine ⟨by omega, ?_, ?_⟩ <;> rintro rfl <;> exact absurd hrange.1 (by decide)
  have hchars : ∀ ch ∈ (aarField n o).raw, ch.toNat < 128 ∧ ch ≠ '\r' ∧ ch ≠ '\n' := by
    have hraw : (aarField n o).raw =
        ArcKind.aar.name ++ [':', ' ', 'i', '='] ++ (natText n ++ ';' :: ' ' :: o.authResults) := by
      rw [raw_aarField, List.append_assoc]
      rfl
    rw [hraw]
    exact List.forall_mem_append.mpr ⟨hname, List.forall_mem_append.mpr ⟨hdigits,
      List.forall_mem_cons.mpr ⟨by decide, List.forall_mem_cons.mpr ⟨by decide, ho.results⟩⟩⟩⟩
  have hfolded : Folded [(aarField n o).raw] := by
    refine ⟨?_, List.forall_mem_nil _, List.forall_mem_singleton.mpr fun ch hch => (hchars ch hch).2⟩
    rw [raw_aarField]
    exact notContinuation_name .aar _
  have hne : (aarField n o).raw ≠ [] := by
    rw [raw_aarField]
    exact List.append_ne_nil_of_right_ne_nil _ (List.cons_ne_nil _ _)
  exact ⟨List.cons_ne_nil _ _, List.forall_mem_singleton.mpr hfolded,
    List.forall_mem_singleton.mpr hne,
    List.forall_mem_singleton.mpr fun ch hch => (hchars ch hch).1⟩

theorem readMessage_hop {s : FullSet} (hstart : StartsWithField raw) (ho : SealOk o)
    {amsTags sealTags : List (Text × Text)} (hams : ∀ p ∈ amsTags, IsArcTag p)
    (hseal : ∀ p ∈ sealTags, IsArcTag p) {m m' : Nat} {amsSig sealSig : Bytes}
    (hs : s = ⟨aarField n o, signedField .ams amsTags m amsSig, signedField .seal sealTags m' sealSig⟩) :
    StartsWithField (prependHeader raw (join crlf [s.sealField.raw, s.ams.raw, s.aar.raw])) ∧
      readMessage (prependHeader raw (join crlf [s.sealField.raw, s.ams.raw, s.aar.raw])) =
        (s.sealField :: s.ams :: s.aar :: (readMessage raw).1, (readMessage raw).2) := by
  obtain ⟨t₁, ls₁, hlines₁, heq₁⟩ := headerLines_signedField .seal hseal m' sealSig
  obtain ⟨t₂, ls₂, hlines₂, heq₂⟩ := headerLines_signedField .ams hams m amsSig
  have hrs := hlines₁.cons (hlines₂.cons (headerLines_aarField ho n))
  have htext : join crlf [s.sealField.raw, s.ams.raw, s.aar.raw] = Pieces.glue '\r' '\n'
      [(ArcKind.seal.name ++ ':' :: t₁) :: ls₁, (ArcKind.ams.name ++ ':' :: t₂) :: ls₂,
        [(aarField n o).raw]].flatten := by
    rw [join_crlf, ← glue_map_glue (by simp)]
    simp only [List.map_cons, List.map_nil, ← heq₁, ← heq₂, hs]
    rfl
  have hsigned : ∀ (kind : ArcKind) front m signature, toField (signedField kind front m signature).raw =
      some (signedField kind front m signature) := fun kind _ _ _ => toField_name kind _
  have haar : toField (aarField n o).raw = some (aarField n o) := by
    have h := toField_name .aar (' ' :: 'i' :: '=' :: (natText n ++ ';' :: ' ' :: o.authResults))
    rw [← raw_aarField] at h
    exact h
  have hone : Pieces.glue '\r' '\n' [(aarField n o).raw] = (aarField n o).raw := rfl
  rw [htext]
  constructor
  · rw [StartsWithField, linesOf_prepend hrs]
    exact Option.isSome_iff_exists.mpr ⟨_, toField_name .seal t₁⟩
  · rw [readMessage_prepend hstart hrs, hs]
    simp only [List.map_cons, List.map_nil, ← heq₁, ← heq₂, hone, List.filterMap_cons, hsigned, haar,
      List.filterMap_nil]
    rfl

end

section

variable {K : Type} {c : Crypto K} {u : CaseMap} {o : ArcSealOptions} {now : Nat}
  {resolveTxt : Text → Except Text (List Text)} {start raw : Bytes} {sets : List FullSet}
  {fields fields' : List HeaderField}

def HopKeys (c : Crypto K) (u : CaseMap) (resolveTxt : Text → Except Text (List Text))
    (o : ArcSealOptions) : Prop :=
  ∃ publicKey records, KeyPair c o.algorithm o.privateKey publicKey ∧
    resolveTxt (o.selector ++ "._domainkey.".toList ++ o.domain) = .ok records ∧
    ArcPublishes u o.algorithm publicKey records

theorem HopKeys.signed (h : HopKeys c u resolveTxt o) (data : Bytes) : ∃ signature,
    signDkimData c data o.algorithm o.privateKey = .ok signature ∧
      Signed c u resolveTxt o data signature := by
  obtain ⟨publicKey, records, hpair, hresolve, hpub⟩ := h
  obtain ⟨key, hkey, hverifies⟩ := hpair.verifies
  obtain ⟨signature, hsign, hne, hverify⟩ := hverifies data
  exact ⟨signature, hsign, hne, records, publicKey, key, hresolve, hpub, hkey, hverify⟩

theorem lower_default {n : Text} (hn : n ∈ defaultSignedHeaders) : toLowerCase u n = n := by
  obtain ⟨-, hascii, hlower, -⟩ := default_names n hn
  rw [toLowerCase, if_pos hascii, hlower]

theorem mem_amsNames (ho : o.signedHeaders = none) (groups : List (Text × List HeaderField)) :
    ∀ n ∈ amsNames u o groups, n ∈ defaultSignedHeaders := by
  have hfrom : "from".toList ∈ defaultSignedHeaders := by decide
  have hcandidates : ∀ n ∈ ((o.signedHeaders.getD amsSignedHeaders).map (toLowerCase u)).filter
      (fun n => n ≠ "from".toList && (Assoc.get groups n).isSome), n ∈ defaultSignedHeaders := by
    intro n hn
    rw [ho] at hn
    obtain ⟨n', hn', rfl⟩ := List.mem_map.mp (List.mem_filter.mp hn).1
    have hmem : n' ∈ defaultSignedHeaders := hn'
    rw [lower_default hmem]
    exact hmem
  rw [amsNames]
  split
  · exact List.forall_mem_cons.mpr ⟨hfrom, List.forall_mem_cons.mpr ⟨hfrom, hcandidates⟩⟩
  · exact hcandidates

theorem amsNames_ne_nil (ho : o.signedHeaders = none)
    (h : ∃ f ∈ fields, fieldKey u f ∈ defaultSignedHeaders) :
    amsNames u o (groupHeaderFields u fields) ≠ [] := by
  obtain ⟨f, hf, hkey⟩ := h
  have hsome := (isSome_groupHeaderFields (u := u) fields (fieldKey u f)).mpr ⟨f, hf, rfl⟩
  rw [amsNames]
  split
  · exact List.cons_ne_nil _ _
  next hfrom =>
    have hne : fieldKey u f ≠ "from".toList := fun heq => hfrom (heq ▸ hsome)
    refine List.ne_nil_of_mem (a := fieldKey u f) (List.mem_filter.mpr ⟨?_, by
      rw [Bool.and_eq_true, decide_eq_true_eq]
      exact ⟨hne, hsome⟩⟩)
    rw [ho]
    exact List.mem_map.mpr ⟨_, hkey, lower_default hkey⟩

theorem notDefault_of_arcKind {f : HeaderField} {kind : ArcKind} (h : arcKind u f = some kind) :
    fieldKey u f ∉ defaultSignedHeaders := by
  rw [arcKind] at h
  split_ifs at h with haar hams hseal
  · rw [haar]
    decide
  · rw [hams]
    decide
  · rw [hseal]
    decide

theorem amsInput_congr {ns : List Text} (hns : ∀ n ∈ ns, n ∈ defaultSignedHeaders)
    (h : ∀ f ∈ fields, ∃ kind, arcKind u f = some kind) (amsSelf : Text) :
    amsInput u (groupHeaderFields u (fields ++ fields')) ns amsSelf =
      amsInput u (groupHeaderFields u fields') ns amsSelf := by
  have hresolve : resolveHeaderSequence u (groupHeaderFields u (fields ++ fields')) ns =
      resolveHeaderSequence u (groupHeaderFields u fields') ns := by
    refine resolveFrom_congr (fun n hn => ?_) []
    have hlist : toLowerCase u (trim n) = n := by
      rw [trim_of_all (Solid.white (default_names n (hns n hn)).2.2.2.1), lower_default (hns n hn)]
    have hnone : fields.filter (fun f => fieldKey u f = toLowerCase u (trim n)) = [] := by
      refine List.filter_eq_nil_iff.mpr fun f hf => ?_
      obtain ⟨kind, hkind⟩ := h f hf
      rw [decide_eq_true_eq, hlist]
      exact fun heq => notDefault_of_arcKind hkind (heq ▸ hns n hn)
    rw [List.filter_append, hnone, List.nil_append]
  rw [amsInput, amsInput, hresolve]

/-- The message after some hops: their fields stand before those it started with, and all signatures
verify. -/
structure SealedBy (c : Crypto K) (u : CaseMap) (resolveTxt : Text → Except Text (List Text))
    (start raw : Bytes) (sets : List FullSet) : Prop where
  starts : StartsWithField raw
  fields : (readMessage raw).1 = hopFields sets ++ (readMessage start).1
  body : (readMessage raw).2 = (readMessage start).2
  numbered : Numbered u sets
  seals : ∀ k s, sets[k]? = some s → verifySeal c u resolveTxt (sets.take k) s = .ok none
  ams : ∀ s, sets.getLast? = some s → verifyAms c u resolveTxt raw s.ams = .ok none

theorem fields_zipIdx (sets : List FullSet) (k : Nat) :
    ((sets.zipIdx k).map fun p => p.1.toSet p.2).flatMap ArcSet.fields =
      sets.flatMap FullSet.fields := by
  induction sets generalizing k with
  | nil => rfl
  | cons s sets ih =>
    rw [List.zipIdx_cons, List.map_cons, List.flatMap_cons, List.flatMap_cons, ih]
    rfl

theorem arcSeal_ok (hkeys : HopKeys c u resolveTxt o) {n : Nat} {prior : List HeaderField}
    (hnext : instanceText ((maxInstance (parseArcChain u raw)).map fun n => roundInt (n + 1)) =
      natText n) (hprior : (parseArcChain u raw).flatMap ArcSet.fields = prior) (now : Nat) :
    ∃ (t : Nat) (cv : ArcCv) (m m' : Nat) (amsSig sealSig : Bytes) (ams sealField : HeaderField),
      let ns := amsNames u o (groupHeaderFields u (readMessage raw).1)
      let amsTags := amsFront c n t o ns (readMessage raw).2
      arcSeal c u now raw o = .ok (join crlf [sealField.raw, ams.raw, (aarField n o).raw]) ∧
        ams = signedField .ams amsTags m amsSig ∧
        sealField = signedField .seal (sealFront n t cv o) m' sealSig ∧
        Signed c u resolveTxt o (amsInput u (groupHeaderFields u (readMessage raw).1) ns
          (canonHeaderField u ⟨ArcKind.ams.name, tagRaw ArcKind.ams.name amsTags []⟩ .relaxed))
            amsSig ∧
        Signed c u resolveTxt o (latin1Encode (buildSealInput u prior (aarField n o) ams
          ⟨ArcKind.seal.name, tagRaw ArcKind.seal.name (sealFront n t cv o) []⟩)) sealSig := by
  rw [arcSeal]
  dsimp only
  rw [hnext, hprior, amsTags_eq, sealTags_eq, tagField_eq, tagField_eq]
  generalize amsNames u o (groupHeaderFields u (readMessage raw).1) = ns
  obtain ⟨amsSig, hams, hamsSigned⟩ := hkeys.signed (amsInput u
    (groupHeaderFields u (readMessage raw).1) ns (canonHeaderField u ⟨ArcKind.ams.name,
      tagRaw ArcKind.ams.name (amsFront c n (o.timestamp.getD (now / 1000)) o ns
        (readMessage raw).2) []⟩ .relaxed))
  rw [hams]
  dsimp only
  rw [← tagRaw_append]
  generalize (if parseArcChain u raw = [] then ArcCv.none else o.cv.getD .none) = cv
  have hfield : ∀ (kind : ArcKind) front m signature, (⟨kind.name, tagRaw kind.name front
      (foldSignatureTail m (base64Encode signature))⟩ : HeaderField) =
        signedField kind front m signature := fun _ _ _ _ => rfl
  have haar : (⟨ArcKind.aar.name, ArcKind.aar.name ++ ": i=".toList ++ natText n ++ "; ".toList ++
      o.authResults⟩ : HeaderField) = aarField n o := rfl
  rw [hfield, haar]
  obtain ⟨sealSig, hseal, hsealSigned⟩ := hkeys.signed (latin1Encode (buildSealInput u prior
    (aarField n o) (signedField .ams (amsFront c n (o.timestamp.getD (now / 1000)) o ns
      (readMessage raw).2) (tagRaw ArcKind.ams.name (amsFront c n (o.timestamp.getD (now / 1000)) o
        ns (readMessage raw).2) []).length amsSig)
      ⟨ArcKind.seal.name, tagRaw ArcKind.seal.name
        (sealFront n (o.timestamp.getD (now / 1000)) cv o) []⟩))
  rw [hseal]
  dsimp only
  rw [← tagRaw_append]
  exact ⟨_, cv, _, _, amsSig, sealSig, _, _, rfl, rfl, rfl, hamsSigned, hsealSigned⟩

theorem sealedBy_hop (h : SealedBy c u resolveTxt start raw sets)
    (hclean : ∀ f ∈ (readMessage start).1, arcKind u f = none)
    (hdefault : ∃ f ∈ (readMessage start).1, fieldKey u f ∈ defaultSignedHeaders)
    (hlength : sets.length + 1 ≤ 2 ^ 53) (ho : SealOk o) (hkeys : HopKeys c u resolveTxt o)
    (now : Nat) : ∃ header s, arcSeal c u now raw o = .ok header ∧
      SealedBy c u resolveTxt start (prependHeader raw header) (sets ++ [s]) := by
  have hchain : parseArcChain u raw = (sets.zipIdx 1).map fun p => p.1.toSet p.2 := by
    rw [parseArcChain, h.fields, chainOf_hopFields hclean h.numbered]
  have hdefault' : ∃ f ∈ (readMessage raw).1, fieldKey u f ∈ defaultSignedHeaders := by
    obtain ⟨f, hf, hkey⟩ := hdefault
    exact ⟨f, h.fields ▸ List.mem_append_right _ hf, hkey⟩
  have hns := mem_amsNames (u := u) ho.headers (groupHeaderFields u (readMessage raw).1)
  have hne := amsNames_ne_nil ho.headers hdefault'
  have hnext : instanceText ((maxInstance (parseArcChain u raw)).map fun n => roundInt (n + 1)) =
      natText (sets.length + 1) := by
    rw [hchain, maxInstance_zipIdx, Option.map_some, roundInt_of_le hlength]
    rfl
  have hprior : (parseArcChain u raw).flatMap ArcSet.fields = sets.flatMap FullSet.fields := by
    rw [hchain, fields_zipIdx]
  obtain ⟨t, cv, m, m', amsSig, sealSig, ams, sealField, hseal, hams, hsealField, hamsSigned,
    hsealSigned⟩ := arcSeal_ok hkeys hnext hprior now
  have hs := congrArg₂ (FullSet.mk (aarField (sets.length + 1) o)) hams hsealField
  obtain ⟨hstarts, hread⟩ := readMessage_hop h.starts ho (isArcTag_amsFront c _ _ t ho hns)
    (isArcTag_sealFront _ t cv ho) hs
  have hinst : ∀ kind, instanceOf (FullSet.part ⟨aarField (sets.length + 1) o, ams, sealField⟩ kind) =
      some (some (sets.length + 1)) := by
    intro kind
    cases kind with
    | aar => exact instanceOf_aarField hlength
    | ams =>
      rw [FullSet.part, hams]
      exact instanceOf_signedField hlength
    | _ =>
      rw [FullSet.part, hsealField]
      exact instanceOf_signedField hlength
  have hkind : ∀ kind, arcKind u (FullSet.part ⟨aarField (sets.length + 1) o, ams, sealField⟩ kind) =
      some kind := by
    intro kind
    cases kind with
    | aar => exact arcKind_name .aar _
    | ams =>
      rw [FullSet.part, hams]
      exact arcKind_name .ams _
    | _ =>
      rw [FullSet.part, hsealField]
      exact arcKind_name .seal _
  refine ⟨_, ⟨aarField (sets.length + 1) o, ams, sealField⟩, hseal, hstarts, ?_, ?_,
    numbered_concat.mpr ⟨h.numbered, fun kind => ⟨hkind kind, hinst kind⟩⟩, ?_, ?_⟩
  · rw [hread, h.fields, hopFields_concat]
    rfl
  · rw [hread, h.body]
  · intro k s hk
    rcases Nat.lt_trichotomy k sets.length with hlt | rfl | hgt
    · rw [List.getElem?_append_left hlt] at hk
      rw [List.take_append_of_le_length hlt.le]
      exact h.seals k s hk
    · rw [List.getElem?_concat_length] at hk
      rw [List.take_append_of_le_length (Nat.le_refl _), List.take_length, ← Option.some.inj hk,
        hsealField]
      exact verifySeal_signed ho hsealSigned
    · rw [List.getElem?_eq_none (by rw [List.length_append, List.length_singleton]; omega)] at hk
      cases hk
  · intro s hs'
    rw [List.getLast?_concat] at hs'
    obtain rfl := Option.some.inj hs'
    refine verifyAms_signed ho hne hns (congrArg Prod.snd hread) hams ?_
    have harc : ∀ f ∈ [sealField, ams, aarField (sets.length + 1) o], ∃ kind,
        arcKind u f = some kind := by
      simp only [List.forall_mem_cons]
      exact ⟨⟨_, hkind .seal⟩, ⟨_, hkind .ams⟩, ⟨_, hkind .aar⟩, List.forall_mem_nil _⟩
    rw [hread]
    refine (congrArg (fun data => Signed c u resolveTxt o data amsSig) ?_).mpr hamsSigned
    exact amsInput_congr hns harc _

/-- A hop and its clock, in milliseconds. -/
structure Hop where
  now : Nat
  options : ArcSealOptions

def sealAll (c : Crypto K) (u : CaseMap) : List Hop → Bytes → Except Text Bytes
  | [], raw => .ok raw
  | hop :: hops, raw =>
    match arcSeal c u hop.now raw hop.options with
    | .error err => .error err
    | .ok header => sealAll c u hops (prependHeader raw header)

theorem sealedBy_hops {hops : List Hop} (h : SealedBy c u resolveTxt start raw sets)
    (hclean : ∀ f ∈ (readMessage start).1, arcKind u f = none)
    (hdefault : ∃ f ∈ (readMessage start).1, fieldKey u f ∈ defaultSignedHeaders)
    (hlength : sets.length + hops.length ≤ 2 ^ 53)
    (hhops : ∀ hop ∈ hops, SealOk hop.options ∧ HopKeys c u resolveTxt hop.options) :
    ∃ raw' sets', sealAll c u hops raw = .ok raw' ∧
      SealedBy c u resolveTxt start raw' sets' ∧ sets'.length = sets.length + hops.length := by
  induction hops generalizing raw sets with
  | nil => exact ⟨raw, sets, rfl, h, rfl⟩
  | cons hop hops ih =>
    obtain ⟨⟨ho, hkeys⟩, hrest⟩ := List.forall_mem_cons.mp hhops
    rw [List.length_cons] at hlength
    obtain ⟨header, s, hseal, hnext⟩ := sealedBy_hop h hclean hdefault (by omega) ho hkeys hop.now
    obtain ⟨raw', sets', hall, hsealed, hlength'⟩ := ih hnext (by
      rw [List.length_append, List.length_singleton]
      omega) hrest
    refine ⟨raw', sets', ?_, hsealed, ?_⟩
    · rw [sealAll, hseal]
      exact hall
    · rw [hlength', List.length_append, List.length_singleton, List.length_cons]
      omega

/-- Up to 50 hops over a message without a chain make a chain that passes. -/
theorem arc_completeness {hops : List Hop} (hstart : StartsWithField start)
    (hclean : ∀ f ∈ (readMessage start).1, arcKind u f = none)
    (hdefault : ∃ f ∈ (readMessage start).1, fieldKey u f ∈ defaultSignedHeaders)
    (hne : hops ≠ []) (hcount : hops.length ≤ 50)
    (hhops : ∀ hop ∈ hops, SealOk hop.options ∧ HopKeys c u resolveTxt hop.options) :
    ∃ raw, sealAll c u hops start = .ok raw ∧
      arcVerify c u raw resolveTxt = .ok { cv := .pass, instances := hops.length } := by
  have hinit : SealedBy c u resolveTxt start start [] :=
    { starts := hstart
      fields := rfl
      body := rfl
      numbered := ⟨List.forall_mem_nil _, fun k s hk => nomatch hk⟩
      seals := fun k s hk => nomatch hk
      ams := fun s hs => nomatch hs }
  have hshort : ([] : List FullSet).length + hops.length ≤ 2 ^ 53 := by
    have hsmall : 50 ≤ 2 ^ 53 := by decide
    rw [List.length_nil]
    omega
  obtain ⟨raw, sets, hall, hsealed, hlength⟩ := sealedBy_hops hinit hclean hdefault hshort hhops
  rw [List.length_nil, Nat.zero_add] at hlength
  have hchain : completeFrom 0 (parseArcChain u raw) = .ok sets := by
    rw [completeFrom_eq_ok, parseArcChain, hsealed.fields,
      chainOf_hopFields hclean hsealed.numbered]
  have hsets : sets ≠ [] := by
    rintro rfl
    exact hne (List.length_eq_zero_iff.mp hlength.symm)
  refine ⟨raw, hall, (arcVerify_pass.mpr ⟨sets, ?_, hsets, hlength ▸ hcount, hchain, hsealed.ams,
    hsealed.seals⟩).1⟩
  rw [hlength]

end

theorem sampleRecords_arc :
    ArcPublishes sampleCaseMap .ed25519Sha256 (List.replicate 32 7) sampleRecords := by
  have hk : matchTag 'k' (pickRun isKeyTypeChar) sampleRecords.flatten =
      some "ed25519".toList := by decide +kernel
  have hp : matchTag 'p' (fun s => some (s.takeWhile isKeyChar)) sampleRecords.flatten =
      some (base64Encode (List.replicate 32 7)) := by decide +kernel
  refine ⟨fun k hk' => ?_, _, hp, by decide +kernel, by decide +kernel⟩
  rw [← Option.some.inj (hk.symm.trans hk')]
  exact if_pos (by decide)

theorem sampleHop_ok (cv : ArcCv) : SealOk (sampleSeal cv) ∧
    HopKeys sampleCrypto sampleCaseMap (fun _ => .ok sampleRecords) (sampleSeal cv) := by
  have hdomain : IsArcName "example.com".toList := by decide
  have hselector : IsArcName "s".toList := by decide
  have hresults : ∀ ch ∈ "mx; dkim=pass".toList, ch.toNat < 128 ∧ ch ≠ '\r' ∧ ch ≠ '\n' := by
    decide
  exact ⟨⟨hdomain, hselector, hresults, rfl⟩, _, _, sampleKeyPair _, rfl, sampleRecords_arc⟩

theorem arc_completeness_witness : ∃ raw,
    sealAll sampleCrypto sampleCaseMap [⟨1000, sampleSeal .none⟩, ⟨2000, sampleSeal .pass⟩]
        sampleMessage = .ok raw ∧
      arcVerify sampleCrypto sampleCaseMap raw (fun _ => .ok sampleRecords) =
        .ok { cv := .pass, instances := 2 } :=
  arc_completeness (by decide +kernel) (by decide +kernel) (by decide +kernel) (by simp) (by decide)
    (by
      simp only [List.forall_mem_cons]
      exact ⟨sampleHop_ok _, sampleHop_ok _, List.forall_mem_nil _⟩)

end Ionosphere.MailAuth
