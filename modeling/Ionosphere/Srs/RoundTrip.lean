import Ionosphere.Srs.Rewrite

/-! The way back: what `srsReverse` makes of an address that `srsForward` wrote, and of the
same address in lower case. -/
namespace Ionosphere.Srs

open Ionosphere.Js

variable {localPart domain : Text}

/-- A domain as it stands behind the last `@` of an address. -/
structure MailDomain where
  text : Text
  ne_nil : text ≠ []
  at_notMem : '@' ∉ text

theorem splitAddress_of_domain (hlocal : localPart ≠ [])
    (hdomain : domain ≠ []) (hat : '@' ∉ domain) :
    splitAddress (localPart ++ '@' :: domain) = some (localPart, domain) := by
  have hpass : ∀ c ∈ domain.reverse, decide (c ≠ '@') = true := by
    intro c hc
    refine decide_eq_true ?_
    rintro rfl
    exact hat (List.mem_reverse.mp hc)
  have hrev : (localPart ++ '@' :: domain).reverse =
      domain.reverse ++ '@' :: localPart.reverse := by
    simp
  have hdrop : (localPart ++ '@' :: domain).reverse.dropWhile (· ≠ '@') =
      '@' :: localPart.reverse := by
    rw [hrev, List.dropWhile_append_of_pos hpass]
    simp
  have htake : (localPart ++ '@' :: domain).reverse.takeWhile (· ≠ '@') = domain.reverse := by
    rw [hrev, List.takeWhile_append_of_pos hpass]
    simp
  have hfull : ¬ (localPart.reverse = [] ∨ domain = []) := by simp [hlocal, hdomain]
  unfold splitAddress
  rw [hdrop, htake]
  simp only [List.reverse_reverse, if_neg hfull]

theorem computeHash_notMem (u : CaseData) (hmac : Text → Text → Bytes) (secret data : Text) :
    '=' ∉ computeHash u hmac secret data := by
  intro hmem
  have hb32 := computeHash_isB32 u hmac secret data '=' hmem
  exact absurd hb32 (by decide)

theorem encodeTimestamp_isB32 (t : Nat) : ∀ c ∈ encodeTimestamp t, isB32 c = true := by
  intro c hc
  simp only [encodeTimestamp, List.mem_cons, List.not_mem_nil, or_false] at hc
  obtain rfl | rfl := hc
  · exact b32Char_isB32 _
  · exact b32Char_isB32 _

theorem notMem_of_isB32 {s : Text} (h : ∀ c ∈ s, isB32 c = true) :
    '=' ∉ s ∧ '=' ∉ s.map asciiLower := by
  have hall : ∀ c ∈ s, c ≠ '=' ∧ asciiLower c ≠ '=' := by
    intro c hc
    exact (b32_normal c (List.contains_iff_mem.mp (h c hc))).2.2.2
  refine ⟨fun hmem => (hall _ hmem).1 rfl, fun hmem => ?_⟩
  obtain ⟨c, hc, hlower⟩ := List.mem_map.mp hmem
  exact (hall c hc).2 hlower

theorem toLowerCase_of_isB32 {u : CaseData} {s : Text} (h : ∀ c ∈ s, isB32 c = true) :
    u.toLowerCase s = s.map asciiLower := by
  refine CaseData.toLowerCase_ascii (List.all_eq_true.mpr fun c hc => ?_)
  exact (b32_normal c (List.contains_iff_mem.mp (h c hc))).2.2.1

/-- The days from one time to another, as far as a stamp can tell. -/
def ageOf (t t' : Nat) : Int := ((dayOf t' : Int) - dayOf t) % tsPrecisionDays

theorem idxOf_b32Char : ∀ n < 32, B32.idxOf? (b32Char n) = some n := by decide

theorem day_digits {d : Nat} (h : d < 1024) :
    (d >>> 5) &&& 31 < 32 ∧ d &&& 31 < 32 ∧ ((d >>> 5 &&& 31) <<< 5 ||| d &&& 31) = d := by
  have hlow : d &&& 31 = d % 32 := Nat.and_two_pow_sub_one_eq_mod d 5
  have hhigh : d >>> 5 &&& 31 = d / 32 := by
    rw [Nat.shiftRight_eq_div_pow]
    have hmask : d / 2 ^ 5 &&& 31 = d / 2 ^ 5 % 32 := Nat.and_two_pow_sub_one_eq_mod _ 5
    omega
  have hlt : d % 32 < 2 ^ 5 := Nat.mod_lt _ (by decide)
  have hjoin := Nat.shiftLeft_add_eq_or_of_lt hlt (d / 32)
  rw [hlow, hhigh, ← hjoin, Nat.shiftLeft_eq]
  omega

theorem timestampAgeDays_of_normal {tt : Text} {t : Nat} (hlen : tt.length = 2)
    (hnormal : normalizeB32 tt = some (encodeTimestamp t)) (t' : Nat) :
    timestampAgeDays tt t' = some (ageOf t t') := by
  have hlt : dayOf t % tsPrecisionDays < 1024 := Nat.mod_lt _ (by decide)
  obtain ⟨hhi, hlo, hjoin⟩ := day_digits hlt
  have hkeep : ¬ tt.length ≠ 2 := fun hne => hne hlen
  unfold timestampAgeDays
  rw [if_neg hkeep, hnormal]
  simp only [encodeTimestamp, idxOf_b32Char _ hhi, idxOf_b32Char _ hlo, hjoin]
  simp only [ageOf, tsPrecisionDays, Option.some.injEq]
  split_ifs <;> omega

theorem timestampAgeDays_stamp (t t' : Nat) :
    timestampAgeDays (encodeTimestamp t) t' = some (ageOf t t') ∧
      timestampAgeDays ((encodeTimestamp t).map asciiLower) t' = some (ageOf t t') := by
  obtain ⟨hsame, hlower⟩ := normalizeB32_of_isB32 (encodeTimestamp_isB32 t)
  exact ⟨timestampAgeDays_of_normal rfl hsame t', timestampAgeDays_of_normal rfl hlower t'⟩

/-- A result that holds as long as the stamp is young enough. -/
def within (maxAge : Option Int) (t t' : Nat) (r : SrsReverseResult) : SrsReverseResult :=
  if maxAge.getD defaultMaxAgeDays < ageOf t t' then .refused .expired else r

theorem checkAge_guard {tt : Text} {t t' : Nat}
    (h : timestampAgeDays tt t' = some (ageOf t t')) (maxAge : Option Int)
    (r : SrsReverseResult) :
    (checkAge tt t' (maxAge.getD defaultMaxAgeDays)).guard r = within maxAge t t' r := by
  unfold checkAge within
  rw [h]
  dsimp only
  split_ifs <;> rfl

section

variable {u : CaseData} {hmac : Text → Text → Bytes}

theorem hashEquals_self {hash : Text} (h : ∀ c ∈ hash, isB32 c = true) :
    hashEquals hash hash = true ∧ hashEquals hash (hash.map asciiLower) = true := by
  obtain ⟨hsame, hlower⟩ := normalizeB32_of_isB32 h
  simp [hashEquals, hsame, hlower]

variable (u hmac) in
theorem signedBy_self (opts : SrsOptions) (domain payload : Text) :
    signedBy u hmac opts domain payload
      (computeHash u hmac opts.secret (domain ++ '=' :: payload)) = true :=
  (hashEquals_self (computeHash_isB32 u hmac _ _)).1

variable (u hmac) in
theorem signedBy_lower (opts : SrsOptions) (domain payload : Text) :
    signedBy u hmac opts (u.toLowerCase domain) (u.toLowerCase payload)
      ((computeHash u hmac opts.secret (domain ++ '=' :: payload)).map asciiLower) = true := by
  have hfold : u.toLowerCase domain ++ '=' :: u.toLowerCase payload =
      u.toLowerCase (domain ++ '=' :: payload) :=
    (CaseData.toLowerCase_barrier (by decide) domain payload).symm
  have hsame : computeHash u hmac opts.secret (u.toLowerCase domain ++ '=' :: u.toLowerCase payload) =
      computeHash u hmac opts.secret (domain ++ '=' :: payload) := by
    rw [computeHash, hfold, CaseData.toLowerCase_idem]
    rfl
  unfold signedBy
  rw [hsame]
  exact (hashEquals_self (computeHash_isB32 u hmac _ _)).2

theorem reverseSrs0_of_signed {hash tt origDomain : Text} (origLocal forwarderDomain : Text)
    {opts : SrsOptions} (hhash : '=' ∉ hash) (htt : '=' ∉ tt) (hdomain : '=' ∉ origDomain)
    (hsigned : signedBy u hmac opts forwarderDomain
      (tt ++ '=' :: origDomain ++ '=' :: origLocal) hash = true) :
    reverseSrs0 u hmac (hash ++ '=' :: (tt ++ '=' :: origDomain ++ '=' :: origLocal))
        forwarderDomain opts =
      (checkAge tt opts.now (opts.maxAgeDays.getD defaultMaxAgeDays)).guard
        (.ok (origLocal ++ '@' :: origDomain)) := by
  have hsplit : (hash ++ '=' :: (tt ++ '=' :: origDomain ++ '=' :: origLocal)).splitOn '=' =
      hash :: tt :: origDomain :: origLocal.splitOn '=' := by
    rw [List.splitOn_append_cons_self_of_not_mem hhash, List.append_assoc, List.cons_append,
      List.splitOn_append_cons_self_of_not_mem htt,
      List.splitOn_append_cons_self_of_not_mem hdomain]
  have hjoin : join ['='] (origLocal.splitOn '=') = origLocal := List.intercalate_splitOn '='
  unfold reverseSrs0
  rw [hsplit]
  cases hlocal : origLocal.splitOn '=' with
  | nil => exact absurd hlocal (List.splitOn_ne_nil _ _)
  | cons l ls =>
    rw [hlocal] at hjoin
    simp only [hjoin, hsigned, Bool.not_true, Bool.false_eq_true, if_false]

theorem srsReverse_srs0 {guts domain : Text} (hdomain : domain ≠ []) (hat : '@' ∉ domain)
    (opts : SrsOptions) :
    srsReverse u hmac (srs0 ++ guts ++ '@' :: domain) opts =
        reverseSrs0 u hmac guts domain opts ∧
      srsReverse u hmac (srs0.map asciiLower ++ guts ++ '@' :: domain) opts =
        reverseSrs0 u hmac guts domain opts := by
  have hupper := splitAddress_of_domain (show srs0 ++ guts ≠ [] by unfold srs0; simp) hdomain hat
  have hlower := splitAddress_of_domain (show srs0.map asciiLower ++ guts ≠ [] by unfold srs0; simp)
    hdomain hat
  have hmatch : afterSrs0 (srs0 ++ guts) = some guts := rfl
  have hmatch' : afterSrs0 (srs0.map asciiLower ++ guts) = some guts := rfl
  refine ⟨?_, ?_⟩
  · simp only [srsReverse, hupper, hmatch]
  · simp only [srsReverse, hlower, hmatch']

theorem signed_eq (tag secret forwarderDomain payload : Text) :
    signed u hmac tag secret forwarderDomain payload =
      tag ++ (computeHash u hmac secret (forwarderDomain ++ '=' :: payload) ++ '=' :: payload) ++
        '@' :: forwarderDomain := by
  rw [signed, List.append_assoc tag]

theorem srsForward_first (secret : Text) (hlocal : localPart ≠ [])
    (hdomain : domain ≠ []) (hat : '@' ∉ domain) (h0 : afterSrs0 localPart = none)
    (h1 : afterSrs1 localPart = none) (forwarderDomain : Text) (maxAge : Option Int) (t : Nat) :
    srsForward u hmac (localPart ++ '@' :: domain) forwarderDomain ⟨secret, maxAge, t⟩ =
      some (signed u hmac srs0 secret forwarderDomain
        (encodeTimestamp t ++ '=' :: domain ++ '=' :: localPart)) := by
  simp only [srsForward, splitAddress_of_domain hlocal hdomain hat, h0, h1]

theorem srsReverse_first (secret : Text) (hdomain : '=' ∉ domain)
    (forwarder : MailDomain) (maxAge : Option Int) (t t' : Nat) :
    srsReverse u hmac (signed u hmac srs0 secret forwarder.text
        (encodeTimestamp t ++ '=' :: domain ++ '=' :: localPart)) ⟨secret, maxAge, t'⟩ =
      within maxAge t t' (.ok (localPart ++ '@' :: domain)) := by
  have hsigned := signedBy_self u hmac ⟨secret, maxAge, t'⟩ forwarder.text
    (encodeTimestamp t ++ '=' :: domain ++ '=' :: localPart)
  have hreverse := reverseSrs0_of_signed localPart forwarder.text (computeHash_notMem u hmac _ _)
    (notMem_of_isB32 (encodeTimestamp_isB32 t)).1 hdomain hsigned
  rw [checkAge_guard (timestampAgeDays_stamp t t').1] at hreverse
  rw [signed_eq, (srsReverse_srs0 forwarder.ne_nil forwarder.at_notMem _).1]
  exact hreverse

theorem signed_lower (secret forwarderDomain payload : Text) :
    u.toLowerCase (signed u hmac srs0 secret forwarderDomain payload) =
      srs0.map asciiLower ++
        ((computeHash u hmac secret (forwarderDomain ++ '=' :: payload)).map asciiLower ++
          '=' :: u.toLowerCase payload) ++ '@' :: u.toLowerCase forwarderDomain := by
  have htag : ∀ rest : Text, u.toLowerCase (srs0 ++ rest) =
      srs0.map asciiLower ++ u.toLowerCase rest := by
    intro rest
    have hfold := CaseData.toLowerCase_barrier (u := u) (c := '=') (by decide) "SRS0".toList rest
    have hname : u.toLowerCase "SRS0".toList = "srs0".toList :=
      CaseData.toLowerCase_ascii (by decide)
    rw [hname] at hfold
    exact hfold
  rw [signed_eq, CaseData.toLowerCase_barrier (by decide), htag,
    CaseData.toLowerCase_barrier (by decide), toLowerCase_of_isB32 (computeHash_isB32 u hmac _ _)]

theorem srsReverse_lower (secret : Text) (hdomain : '=' ∉ domain)
    (forwarder : MailDomain) (maxAge : Option Int) (t t' : Nat) :
    srsReverse u hmac (u.toLowerCase (signed u hmac srs0 secret forwarder.text
        (encodeTimestamp t ++ '=' :: domain ++ '=' :: localPart))) ⟨secret, maxAge, t'⟩ =
      within maxAge t t' (.ok (u.toLowerCase (localPart ++ '@' :: domain))) := by
  have hsigned := signedBy_lower u hmac ⟨secret, maxAge, t'⟩ forwarder.text
    (encodeTimestamp t ++ '=' :: domain ++ '=' :: localPart)
  have hpayload : u.toLowerCase (encodeTimestamp t ++ '=' :: domain ++ '=' :: localPart) =
      (encodeTimestamp t).map asciiLower ++ '=' :: u.toLowerCase domain ++
        '=' :: u.toLowerCase localPart := by
    rw [CaseData.toLowerCase_barrier (by decide), CaseData.toLowerCase_barrier (by decide),
      toLowerCase_of_isB32 (encodeTimestamp_isB32 t)]
  rw [hpayload] at hsigned
  have hreverse := reverseSrs0_of_signed (u.toLowerCase localPart) (u.toLowerCase forwarder.text)
    (notMem_of_isB32 (computeHash_isB32 u hmac _ _)).2
    (notMem_of_isB32 (encodeTimestamp_isB32 t)).2
    (CaseData.notMem_toLowerCase (by decide) hdomain) hsigned
  rw [checkAge_guard (timestampAgeDays_stamp t t').2] at hreverse
  have hne : u.toLowerCase forwarder.text ≠ [] := CaseData.toLowerCase_ne_nil forwarder.ne_nil
  have hat : '@' ∉ u.toLowerCase forwarder.text :=
    CaseData.notMem_toLowerCase (by decide) forwarder.at_notMem
  rw [signed_lower, (srsReverse_srs0 hne hat _).2, hpayload,
    CaseData.toLowerCase_barrier (by decide) localPart domain]
  exact hreverse

end

/-- A sender that was not rewritten before comes back as it was, and in lower case when the
rewritten address is put in lower case on the way, for `maxAge` days; after that the stamp
has expired. The stamp goes round once in 1024 days. -/
theorem srs_round_trip (u : CaseData) (hmac : Text → Text → Bytes) (secret localPart : Text)
    (domain forwarder : MailDomain) (maxAge : Option Int) (t t' : Nat) (hlocal : localPart ≠ [])
    (h0 : afterSrs0 localPart = none) (h1 : afterSrs1 localPart = none)
    (hdomain : '=' ∉ domain.text) :
    ∃ address,
      srsForward u hmac (localPart ++ '@' :: domain.text) forwarder.text ⟨secret, maxAge, t⟩ =
        some address ∧
      srsReverse u hmac address ⟨secret, maxAge, t'⟩ =
        within maxAge t t' (.ok (localPart ++ '@' :: domain.text)) ∧
      srsReverse u hmac (u.toLowerCase address) ⟨secret, maxAge, t'⟩ =
        within maxAge t t' (.ok (u.toLowerCase (localPart ++ '@' :: domain.text))) := by
  refine ⟨_, srsForward_first secret hlocal domain.ne_nil domain.at_notMem h0 h1 forwarder.text
    maxAge t, ?_, ?_⟩
  · exact srsReverse_first secret hdomain forwarder maxAge t t'
  · exact srsReverse_lower secret hdomain forwarder maxAge t t'

/-- A local part with separators of its own, rewritten on one day and returned twenty-one
days later. -/
theorem srs_round_trip_separators :
    ∃ address,
      srsForward CaseData.ascii (fun _ data => utf8Encode data) "a=\"b@c\"@Example.org".toList
        "fwd.example".toList ⟨"key".toList, none, 0⟩ = some address ∧
      srsReverse CaseData.ascii (fun _ data => utf8Encode data) address
        ⟨"key".toList, none, 21 * msPerDay⟩ = .ok "a=\"b@c\"@Example.org".toList := by
  obtain ⟨address, hforward, hreverse, -⟩ :=
    srs_round_trip CaseData.ascii (fun _ data => utf8Encode data) "key".toList "a=\"b@c\"".toList
      ⟨"Example.org".toList, by decide, by decide⟩ ⟨"fwd.example".toList, by decide, by decide⟩ none
      0 (21 * msPerDay) (by decide) (by decide) (by decide) (by decide)
  exact ⟨address, hforward, hreverse⟩

end Ionosphere.Srs
