import Ionosphere.MailAuth.Signature

/-! What `dkimSign` signs passes `dkimVerify`, as long as the key is published and the signature has
not expired. -/
namespace Ionosphere.MailAuth

open Ionosphere.Js Ionosphere.Core Ionosphere.Lib

/-- `dnsRecord` of `generateDkimKeyPair`. -/
def dnsRecord (algorithm : DkimAlgorithm) (publicKey : Bytes) : Text :=
  "v=DKIM1; k=".toList ++ algorithm.keyType ++ "; p=".toList ++ base64Encode publicKey

/-- The strings of one key record with this key, for this algorithm. -/
structure Publishes (u : CaseMap) (algorithm : DkimAlgorithm) (publicKey : Bytes)
    (records : List Text) : Prop where
  ne_nil : records ≠ []
  tags : ∃ tags, parseTagList u records.flatten = some tags ∧
    (findTag tags "v").getD "DKIM1".toList = "DKIM1".toList ∧
    (∃ p, findTag tags "p" = some p ∧ p ≠ [] ∧ base64Lenient p = publicKey) ∧
    (((findTag tags "h").getD "sha256".toList).splitOn ':').any
      (fun x => toLowerCase u (trim x) = "sha256".toList) ∧
    (findTag tags "k").getD "rsa".toList = algorithm.keyType

/-- A private key and the public key that verifies what it signs. -/
structure KeyPair {K : Type} (c : Crypto K) (algorithm : DkimAlgorithm) (privateKey : Text)
    (publicKey : Bytes) : Prop where
  verifies : ∃ key, dkimPublicKey c publicKey algorithm = .ok key ∧
    ∀ data, ∃ signature, signDkimData c data algorithm privateKey = .ok signature ∧
      signature ≠ [] ∧ verifyDkimData c data algorithm key signature = .ok true

def recordTags (algorithm : DkimAlgorithm) (publicKey : Bytes) : List (Text × Text) :=
  [(['k'], algorithm.keyType), (['p'], base64Encode publicKey)]

theorem written_recordTags (algorithm : DkimAlgorithm) (publicKey : Bytes) :
    ∀ p ∈ recordTags algorithm publicKey, Written p := by
  have hkey : ';' ∉ algorithm.keyType := by cases algorithm <;> decide
  have hname : ∀ n ∈ [['k'], ['p']], IsTagName n := by decide
  refine List.forall_mem_cons.mpr ⟨⟨hname _ (by simp), hkey⟩, List.forall_mem_singleton.mpr ?_⟩
  exact ⟨hname _ (by simp), notMem_base64 publicKey⟩

theorem parse_dnsRecord (u : CaseMap) (algorithm : DkimAlgorithm) (publicKey : Bytes) :
    parseTagList u (dnsRecord algorithm publicKey) = some
      (⟨['v'], "DKIM1".toList, 2, 7⟩ :: tagsAt 8 (recordTags algorithm publicKey)) := by
  have hwritten := written_recordTags algorithm publicKey
  have hsplit : (dnsRecord algorithm publicKey).splitOn ';' =
      "v=DKIM1".toList :: (recordTags algorithm publicKey).map segmentText := by
    have hwrite : ∀ k p : Text, "v=DKIM1; k=".toList ++ k ++ "; p=".toList ++ p =
        [';'].intercalate ("v=DKIM1".toList :: [(['k'], k), (['p'], p)].map segmentText) := by
      intro k p
      simp [segmentText]
    have hjoin : dnsRecord algorithm publicKey = [';'].intercalate
        ("v=DKIM1".toList :: (recordTags algorithm publicKey).map segmentText) := hwrite _ _
    rw [hjoin]
    refine List.splitOn_intercalate ';' (List.forall_mem_cons.mpr ⟨by decide, ?_⟩) (by simp)
    intro seg hseg
    obtain ⟨p, hp, rfl⟩ := List.mem_map.mp hseg
    simp only [segmentText, List.cons_append, List.mem_cons, List.mem_append, not_or]
    exact ⟨by decide, notMem_tagName (hwritten p hp).name (by decide), by decide,
      (hwritten p hp).value⟩
  have hversion : ∀ segs, parseSegments u 0 ("v=DKIM1".toList :: segs) =
      (parseSegments u 8 segs).map fun tags => ⟨['v'], "DKIM1".toList, 2, 7⟩ :: tags :=
    fun _ => rfl
  rw [parseTagList, hsplit, hversion, parseSegments_written hwritten, Option.map_some]

theorem publishes_dnsRecord {u : CaseMap} (algorithm : DkimAlgorithm) {publicKey : Bytes}
    (hne : publicKey ≠ []) : Publishes u algorithm publicKey [dnsRecord algorithm publicKey] := by
  have hkey : stripFws algorithm.keyType = algorithm.keyType := by cases algorithm <;> decide
  have hpub : stripFws (base64Encode publicKey) = base64Encode publicKey :=
    (solid_base64 publicKey).strip
  refine ⟨List.cons_ne_nil _ _, ⟨['v'], "DKIM1".toList, 2, 7⟩ ::
    tagsAt 8 (recordTags algorithm publicKey), ?_, ?_⟩
  · rw [List.flatten_singleton, parse_dnsRecord]
  · have hhash : (("sha256".toList).splitOn ':').any
        (fun x => toLowerCase u (trim x) = "sha256".toList) = true := rfl
    refine ⟨rfl, ⟨base64Encode publicKey, congrArg some hpub, ?_, base64Lenient_encode _⟩, hhash,
      hkey⟩
    exact fun hnil => hne (base64Encode_eq_nil.mp hnil)

section

variable {K : Type} {c : Crypto K} {u : CaseMap} {now later : Nat} {o : DkimSignOptions}
  {ns : List Text} {body value : Text} {raw : Bytes}

theorem expired_natText {x : Nat} (hx : later ≤ x * 1000) (hlater : later ≤ 2 ^ 53) :
    expired later (natText x) = false := by
  have hmin : min x (2 ^ 53) ≤ 2 ^ 53 := Nat.min_le_right x (2 ^ 53)
  have hfirst : (roundRat false x 1).AtLeast (min x (2 ^ 53)) :=
    atLeast_roundRat Nat.one_pos ((Nat.mul_one _).trans_le (Nat.min_le_left x (2 ^ 53))) hmin
  rw [expired, number_natText]
  cases hround : roundRat false x 1 with
  | nan => rfl
  | infinity neg => rfl
  | finite neg num scale =>
    rw [hround] at hfirst
    cases neg with
    | true => exact hfirst.elim
    | false =>
      have hmul : later * 2 ^ scale ≤ num * 1000 := by
        have hle : later ≤ min x (2 ^ 53) * 1000 := by
          rcases Nat.le_total x (2 ^ 53) with hsmall | hlarge
          · rwa [Nat.min_eq_left hsmall]
          · rw [Nat.min_eq_right hlarge]
            exact hlater.trans (Nat.le_mul_of_pos_right _ (by decide))
        calc later * 2 ^ scale ≤ min x (2 ^ 53) * 1000 * 2 ^ scale := Nat.mul_le_mul_right _ hle
          _ = min x (2 ^ 53) * 2 ^ scale * 1000 := Nat.mul_right_comm _ _ _
          _ ≤ num * 1000 := Nat.mul_le_mul_right _ hfirst
      have hsecond := atLeast_roundRat (Nat.two_pow_pos scale) hmul hlater
      dsimp only
      cases hround' : roundRat false (num * 1000) (2 ^ scale) with
      | nan => rfl
      | infinity neg =>
        rw [hround'] at hsecond
        cases neg with
        | true => exact hsecond.elim
        | false => rfl
      | finite neg num' scale' =>
        rw [hround'] at hsecond
        cases neg with
        | true => exact hsecond.elim
        | false => exact decide_eq_false (Nat.not_lt.mpr hsecond)

theorem bodyProblem_fieldWith (ho : Proper u o) (hns : ∀ n ∈ ns, IsListName u n)
    (hexp : ∀ x, o.expiration = some x → later ≤ x * 1000) (hlater : later ≤ 2 ^ 53) :
    bodyProblem c later body (tagsOf c now o ns body value) = none := by
  obtain ⟨-, -, -, -, -, -, -, -, hx, hl, -⟩ := 
    findTag_tagsOf c now body value ho hns
  have hfresh : ((o.expiration.map natText).map (expired later)).getD false = false := by
    cases hcase : o.expiration with
    | none => rfl
    | some x => exact expired_natText (hexp x hcase) hlater
  have hbh : base64Lenient (tagsOf c now o ns body value).bh =
      sha256Text c (canonBody body o.bodyMode) := base64Lenient_encode _
  have hlength : (sha256Text c (canonBody body o.bodyMode)).length = 32 := c.sha256_length _
  have hmode : (tagsOf c now o ns body value).bodyCanon = o.bodyMode := rfl
  rw [bodyProblem, hx, hfresh, if_neg Bool.false_ne_true, hbh, hlength]
  dsimp only
  rw [if_neg (not_not.mpr rfl), hl]
  dsimp only
  rw [hmode, if_neg (not_not.mpr rfl)]

theorem identityProblem_fieldWith (ho : Proper u o) (hns : ∀ n ∈ ns, IsListName u n) :
    identityProblem u (tagsOf c now o ns body value) = none := by
  obtain ⟨-, -, -, -, -, -, -, -, -, -, hi⟩ := 
    findTag_tagsOf c now body value ho hns
  rw [identityProblem, hi]

theorem tryKeyRecord_pass {s : SignatureTags} {publicKey data signature : Bytes} {key : K}
    {records : List Text} (hpub : Publishes u s.algorithm publicKey records)
    (hkey : dkimPublicKey c publicKey s.algorithm = .ok key)
    (hverify : verifyDkimData c data s.algorithm key signature = .ok true) :
    (tryKeyRecord c u records.flatten s data signature).result = .pass := by
  obtain ⟨tags, htags, hv, ⟨p, hp, hpne, hpub⟩, hh, hk⟩ := hpub.tags
  have hhash : ((((findTag tags "h").getD "sha256".toList).splitOn ':').map fun x =>
      toLowerCase u (trim x)).contains "sha256".toList = true := by
    rw [List.contains_iff_mem, List.mem_map]
    obtain ⟨x, hx, hx'⟩ := List.any_eq_true.mp hh
    exact ⟨x, hx, of_decide_eq_true hx'⟩
  obtain ⟨d, p', rfl⟩ := List.exists_cons_of_ne_nil hpne
  rw [tryKeyRecord, htags]
  dsimp only
  rw [hv, if_neg (not_not.mpr rfl), hp]
  dsimp only
  rw [hhash, hk, hpub, hkey]
  simp [hverify]

theorem tryKeyRecords_pass {s : SignatureTags} {publicKey data signature : Bytes} {key : K}
    {records : List Text} (hpub : Publishes u s.algorithm publicKey records)
    (hkey : dkimPublicKey c publicKey s.algorithm = .ok key)
    (hverify : verifyDkimData c data s.algorithm key signature = .ok true)
    (last : DkimVerifyResult) :
    (tryKeyRecords c u s data signature last (keyCandidates records)).result = .pass := by
  have hpass := tryKeyRecord_pass hpub hkey hverify
  have hfirst : ∃ rest, keyCandidates records = records.flatten :: rest := by
    rw [keyCandidates]
    split
    · exact ⟨_, rfl⟩
    next hshort =>
      obtain ⟨r, rest, rfl⟩ := List.exists_cons_of_ne_nil hpub.ne_nil
      rw [List.length_cons] at hshort
      obtain rfl := List.length_eq_zero_iff.mp (show rest.length = 0 by omega)
      exact ⟨[], by simp⟩
  obtain ⟨rest, hrest⟩ := hfirst
  rw [hrest, tryKeyRecords]
  rw [if_pos (.inl hpass)]
  exact hpass

theorem fieldKey_fieldWith : fieldKey u (fieldWith c now o ns body value) =
    "dkim-signature".toList := by
  have hname : isFieldName (fieldWith c now o ns body value).name = true :=
    show isFieldName "DKIM-Signature".toList = true by decide
  rw [fieldKey_eq hname]
  exact show (trim "DKIM-Signature".toList).map asciiLower = "dkim-signature".toList by decide

variable (c now o body value) in
theorem resolve_fieldWith (fields : List HeaderField) (hns : ∀ n ∈ ns, IsListName u n) :
    resolveHeaderSequence u (groupHeaderFields u (fieldWith c now o ns body value :: fields)) ns =
      resolveHeaderSequence u (groupHeaderFields u fields) ns := by
  refine resolveFrom_congr (fun n hn => ?_) []
  have hname : toLowerCase u (trim n) = n := by
    rw [trim_of_all (hns n hn).solid.white, (hns n hn).lower]
  have hother : ¬ fieldKey u (fieldWith c now o ns body value) = n := by
    rw [fieldKey_fieldWith]
    exact fun heq => (hns n hn).other heq.symm
  rw [hname, List.filter_cons_of_neg (by simpa using hother)]

variable (c now body) in
theorem readMessage_sent (ho : Proper u o) (hns : ∀ n ∈ ns, IsListName u n)
    (hstart : StartsWithField raw) {tail : Text} (htail : Solid tail) (n : Nat) :
    readMessage (prependHeader raw (fieldWith c now o ns body (foldSignatureTail n tail)).raw) =
      (fieldWith c now o ns body (foldSignatureTail n tail) :: (readMessage raw).1,
        (readMessage raw).2) := by
  obtain ⟨ls, hls, heq⟩ := headerLines_fieldWith c now body ho hns htail n
  have hread := readMessage_prepend hstart hls
  rw [List.flatten_singleton, List.map_singleton, ← heq] at hread
  rw [hread, List.filterMap_cons, toField_fieldWith]
  rfl

variable (c u now o) in
theorem dataToSign_eq (raw : Bytes) : prepareSignature c u now raw o =
    let ns := signedNames u o (groupHeaderFields u (readMessage raw).1)
    (unsignedText (signedTags c now o ns (readMessage raw).2),
      hashInput u (resolveHeaderSequence u (groupHeaderFields u (readMessage raw).1) ns)
        (fieldWith c now o ns (readMessage raw).2 []) o.headerMode) := by
  have hfield : ∀ ns body, (⟨"DKIM-Signature".toList, unsignedText (signedTags c now o ns body)⟩ :
      HeaderField) = fieldWith c now o ns body [] := fun ns body => by
    rw [unsignedText_eq]
    rfl
  rw [prepareSignature]
  dsimp only
  rw [hfield]

/-- A signed message verifies under the published key until the signature expires; the clock of the
verifier is in milliseconds and exact in a double. -/
theorem dkim_round_trip {publicKey : Bytes} {records : List Text}
    {resolveTxt : Text → Except Text (List Text)} (hstart : StartsWithField raw)
    (hfrom : ∃ f ∈ (readMessage raw).1, fieldKey u f = "from".toList) (ho : Proper u o)
    (hkey : KeyPair c o.algorithm o.privateKey publicKey)
    (hresolve : resolveTxt (o.selector ++ "._domainkey.".toList ++ o.domain) = .ok records)
    (hpub : Publishes u o.algorithm publicKey records)
    (hexp : ∀ x, o.expiration = some x → later ≤ x * 1000) (hlater : later ≤ 2 ^ 53) :
    ∃ header, dkimSign c u now raw o = .ok header ∧
      ((dkimVerify c u later (prependHeader raw header) resolveTxt).head?.map
        DkimVerifyResult.result) = some .pass := by
  obtain ⟨key, hpublic, hsigns⟩ := hkey.verifies
  have hsome := (isSome_groupHeaderFields (u := u) (readMessage raw).1 "from".toList).mpr hfrom
  have hpresent : ¬ (Assoc.get (groupHeaderFields u (readMessage raw).1) "from".toList).isNone := by
    rw [Option.isNone_iff_eq_none, ← Option.not_isSome_iff_eq_none, not_not]
    exact hsome
  have hnames : ∀ n ∈ signedNames u o (groupHeaderFields u (readMessage raw).1), IsListName u n :=
    isListName_signedNames ho fun f hf => (toField_eq_some (wellFormed_readMessage raw f hf).parsed).2.1
  have hdata := dataToSign_eq c u now o raw
  have hmem : "from".toList ∈ signedNames u o (groupHeaderFields u (readMessage raw).1) := .head _
  generalize signedNames u o (groupHeaderFields u (readMessage raw).1) = ns at hnames hdata hmem
  obtain ⟨signature, hsign, hne, hverify⟩ := hsigns (prepareSignature c u now raw o).2
  refine ⟨(fieldWith c now o ns (readMessage raw).2 (foldSignatureTail
    (unsignedText (signedTags c now o ns (readMessage raw).2)).length
      (base64Encode signature))).raw, ?_, ?_⟩
  · rw [dkimSign]
    dsimp only
    rw [if_neg hpresent, hsign, hdata, raw_fieldWith_append]
  · have hbase : Solid (base64Encode signature) := solid_base64 signature
    have hb : stripFws (foldSignatureTail
        (unsignedText (signedTags c now o ns (readMessage raw).2)).length
        (base64Encode signature)) = base64Encode signature := stripFws_fold hbase _
    have hread := readMessage_sent c now (readMessage raw).2 ho hnames
      hstart hbase (unsignedText (signedTags c now o ns (readMessage raw).2)).length
    have hsemi := notMem_fold (notMem_base64 signature)
      (unsignedText (signedTags c now o ns (readMessage raw).2)).length
    generalize foldSignatureTail (unsignedText (signedTags c now o ns (readMessage raw).2)).length
      (base64Encode signature) = value at hb hread hsemi
    have hnonempty : stripFws value ≠ [] := by
      rw [hb]
      exact fun hnil => hne (base64Encode_eq_nil.mp hnil)
    have hfirst : isSignature u (fieldWith c now o ns (readMessage raw).2 value) = true :=
      decide_eq_true fieldKey_fieldWith
    rw [dkimVerify, hread]
    dsimp only
    rw [List.filter_cons_of_pos hfirst, maxDkimSignatures, List.take_succ_cons, List.map_cons,
      List.cons_append, List.head?_cons, Option.map_some, withAlgorithm, verifyOne,
      readSignature_fieldWith ho hnames hmem hsemi hnonempty]
    dsimp only
    rw [bodyProblem_fieldWith ho hnames hexp hlater, identityProblem_fieldWith ho hnames]
    have hlookup : resolveTxt ((tagsOf c now o ns (readMessage raw).2 value).selector ++
        "._domainkey.".toList ++ (tagsOf c now o ns (readMessage raw).2 value).domain) =
          .ok records := hresolve
    have hpub' : Publishes u (tagsOf c now o ns (readMessage raw).2 value).algorithm publicKey
      records := hpub
    have hsigned : base64Lenient (tagsOf c now o ns (readMessage raw).2 value).b = signature :=
      (congrArg base64Lenient hb).trans (base64Lenient_encode signature)
    have hinput : dataToVerify u
        (groupHeaderFields u (fieldWith c now o ns (readMessage raw).2 value :: (readMessage raw).1))
        (fieldWith c now o ns (readMessage raw).2 value)
        (tagsOf c now o ns (readMessage raw).2 value) = (prepareSignature c u now raw o).2 := by
      rw [dataToVerify_fieldWith, resolve_fieldWith c now o (readMessage raw).2 value _ hnames, hdata]
    dsimp only
    rw [hlookup, hinput, hsigned]
    obtain ⟨r, rs, rfl⟩ := List.exists_cons_of_ne_nil hpub.ne_nil
    exact congrArg some (tryKeyRecords_pass hpub' hpublic hverify _)

end

def sampleCrypto : Crypto Unit where
  sha256 := fun _ => List.replicate 32 0
  sha256_length := fun _ => List.length_replicate
  sign := fun _ data _ => .ok (1 :: data)
  verify := fun _ data _ signature => .ok (signature = 1 :: data)
  publicKeyFromDer := fun _ => .ok ((), some 2048)
  publicKeyFromJwk := fun _ => .ok ()

theorem sampleKeyPair (privateKey : Text) : KeyPair sampleCrypto .ed25519Sha256 privateKey
    (List.replicate 32 7) := by
  refine ⟨(), rfl, fun data => ⟨_, rfl, by simp, ?_⟩⟩
  simp [verifyDkimData, sampleCrypto]

def sampleRecords : List Text := [dnsRecord .ed25519Sha256 (List.replicate 32 7)]

def sampleCaseMap : CaseMap := ⟨id, id⟩

def sampleOptions : DkimSignOptions :=
  ⟨"example.com".toList, "s".toList, [], .ed25519Sha256, none, none, none, none, some 2000⟩

def sampleMessage : Bytes := latin1Encode "From: a@example.com\r\n\r\nhi\r\n".toList

theorem dkim_round_trip_witness : ∃ header,
    dkimSign sampleCrypto sampleCaseMap 1000 sampleMessage sampleOptions = .ok header ∧
      ((dkimVerify sampleCrypto sampleCaseMap 2000 (prependHeader sampleMessage header)
        fun _ => .ok sampleRecords).head?.map DkimVerifyResult.result) = some .pass :=
  dkim_round_trip (by decide +kernel) (by decide +kernel)
    ⟨by decide +kernel, by decide +kernel, by decide +kernel⟩ (sampleKeyPair _) rfl
    (publishes_dnsRecord _ (by decide)) (fun x hx => by cases hx; decide) (by decide)

end Ionosphere.MailAuth
