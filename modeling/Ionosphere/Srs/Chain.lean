import Ionosphere.Srs.RoundTrip

/-! Chains of forwarders. The second one wraps the SRS0 address it is given into an SRS1
address with a stamp of its own; every later one signs the same payload again. On the way
back the wrapped stamp is read as well, so no hop makes the first one younger. -/
namespace Ionosphere.Srs

open Ionosphere.Js

/-- A forwarder at the time it forwards. -/
structure Hop where
  secret : Text
  domain : MailDomain
  now : Nat

section

variable (u : CaseData) (hmac : Text → Text → Bytes)

def forwardHop (address : Text) (hop : Hop) : Option Text :=
  srsForward u hmac address hop.domain.text ⟨hop.secret, none, hop.now⟩

def forwardAll (address : Text) (hops : List Hop) : Option Text :=
  hops.foldlM (forwardHop u hmac) address

/-- What the first forwarder writes behind its tag for a sender. -/
def gutsOf (first : Hop) (localPart domain : Text) : Text :=
  let payload := encodeTimestamp first.now ++ '=' :: domain ++ '=' :: localPart
  computeHash u hmac first.secret (first.domain.text ++ '=' :: payload) ++ '=' :: payload

def chainPayload (first second : Hop) (localPart domain : Text) : Text :=
  encodeTimestamp second.now ++ '=' :: first.domain.text ++
    '=' :: gutsOf u hmac first localPart domain

def chainAddress (payload : Text) (hop : Hop) : Text :=
  signed u hmac srs1 hop.secret hop.domain.text payload

variable {u hmac}

theorem chainAddress_split (payload : Text) (hop : Hop) :
    splitAddress (chainAddress u hmac payload hop) =
      some (srs1 ++ (computeHash u hmac hop.secret (hop.domain.text ++ '=' :: payload) ++
        '=' :: payload), hop.domain.text) := by
  rw [chainAddress, signed_eq]
  exact splitAddress_of_domain (by unfold srs1; simp) hop.domain.ne_nil hop.domain.at_notMem

theorem afterSrs1_srs1 (rest : Text) : afterSrs1 (srs1 ++ rest) = some rest := rfl

theorem afterSrs0_srs1 (rest : Text) : afterSrs0 (srs1 ++ rest) = none := rfl

theorem afterSrs1_srs0 (rest : Text) : afterSrs1 (srs0 ++ rest) = none := rfl

theorem afterSrs0_srs0 (rest : Text) : afterSrs0 (srs0 ++ rest) = some rest := rfl

theorem forwardHop_chainAddress (payload : Text) (hop next : Hop) :
    forwardHop u hmac (chainAddress u hmac payload hop) next =
      some (chainAddress u hmac payload next) := by
  simp only [forwardHop, srsForward, chainAddress_split, afterSrs1_srs1,
    splitFirst_of_notMem (computeHash_notMem u hmac _ _)]
  rfl

theorem forwardAll_chainAddress (payload : Text) (hop : Hop) (hops : List Hop) :
    forwardAll u hmac (chainAddress u hmac payload hop) hops =
      some (chainAddress u hmac payload (hops.getLastD hop)) := by
  induction hops generalizing hop with
  | nil => rfl
  | cons next hops ih =>
    have hrest := ih next
    unfold forwardAll at hrest ⊢
    rw [List.foldlM_cons, forwardHop_chainAddress, List.getLastD_cons]
    exact hrest

theorem forwardHop_srs0 (first second : Hop) (localPart domain : Text) :
    forwardHop u hmac
        (srs0 ++ gutsOf u hmac first localPart domain ++ '@' :: first.domain.text) second =
      some (chainAddress u hmac (chainPayload u hmac first second localPart domain) second) := by
  have hsplit := splitAddress_of_domain
    (show srs0 ++ gutsOf u hmac first localPart domain ≠ [] by unfold srs0; simp)
    first.domain.ne_nil first.domain.at_notMem
  simp only [forwardHop, srsForward, hsplit, afterSrs1_srs0, afterSrs0_srs0]
  rfl

theorem gutsOf_split (first : Hop) (localPart : Text) {domain : Text} (hdomain : '=' ∉ domain) :
    (gutsOf u hmac first localPart domain).splitOn '=' =
      computeHash u hmac first.secret (first.domain.text ++
          '=' :: (encodeTimestamp first.now ++ '=' :: domain ++ '=' :: localPart)) ::
        encodeTimestamp first.now :: domain :: localPart.splitOn '=' := by
  unfold gutsOf
  dsimp only
  rw [List.splitOn_append_cons_self_of_not_mem (computeHash_notMem u hmac _ _), List.append_assoc,
    List.cons_append,
    List.splitOn_append_cons_self_of_not_mem (notMem_of_isB32 (encodeTimestamp_isB32 _)).1,
    List.splitOn_append_cons_self_of_not_mem hdomain]

def chainResult (first second : Hop) (localPart domain : Text) (maxAge : Option Int)
    (now : Nat) (u : CaseData) (hmac : Text → Text → Bytes) : SrsReverseResult :=
  within maxAge second.now now (within maxAge first.now now
    (.ok (srs0 ++ gutsOf u hmac first localPart domain ++ '@' :: first.domain.text)))

theorem srsReverse_chainAddress (first second hop : Hop) (localPart : Text) {domain : Text}
    (hdomain : '=' ∉ domain) (hfirst : '=' ∉ first.domain.text) (opts : SrsOptions) :
    srsReverse u hmac
        (chainAddress u hmac (chainPayload u hmac first second localPart domain) hop) opts =
      if signedBy u hmac opts hop.domain.text (chainPayload u hmac first second localPart domain)
          (computeHash u hmac hop.secret
            (hop.domain.text ++ '=' :: chainPayload u hmac first second localPart domain))
      then chainResult first second localPart domain opts.maxAgeDays opts.now u hmac
      else .refused .badHash := by
  have hpayload : (chainPayload u hmac first second localPart domain).splitOn '=' =
      encodeTimestamp second.now :: first.domain.text ::
        (gutsOf u hmac first localPart domain).splitOn '=' := by
    unfold chainPayload
    rw [List.append_assoc, List.cons_append,
      List.splitOn_append_cons_self_of_not_mem (notMem_of_isB32 (encodeTimestamp_isB32 _)).1,
      List.splitOn_append_cons_self_of_not_mem hfirst]
  have hguts := @gutsOf_split u hmac first localPart domain hdomain
  have hjoin : join ['='] ((gutsOf u hmac first localPart domain).splitOn '=') =
      gutsOf u hmac first localPart domain := List.intercalate_splitOn '='
  have houter := (timestampAgeDays_stamp second.now opts.now).1
  have hinner := (timestampAgeDays_stamp first.now opts.now).1
  simp only [srsReverse, chainAddress_split, afterSrs0_srs1, afterSrs1_srs1, reverseSrs1,
    splitFirst_of_notMem (computeHash_notMem u hmac _ _)]
  cases hsigned : signedBy u hmac opts hop.domain.text
    (chainPayload u hmac first second localPart domain)
    (computeHash u hmac hop.secret
      (hop.domain.text ++ '=' :: chainPayload u hmac first second localPart domain)) with
  | false => rfl
  | true =>
    cases hlocal : localPart.splitOn '=' with
    | nil => exact absurd hlocal (List.splitOn_ne_nil _ _)
    | cons l ls =>
      rw [hlocal] at hguts
      rw [hguts] at hpayload hjoin
      simp only [Bool.not_true, Bool.false_eq_true, if_false, if_true, hpayload, hjoin, hguts,
        checkAge_guard houter, checkAge_guard hinner]
      rfl

theorem within_eq_ok {maxAge : Option Int} {t t' : Nat} {r : SrsReverseResult} {address : Text}
    (h : within maxAge t t' r = .ok address) :
    r = .ok address ∧ ageOf t t' ≤ maxAge.getD defaultMaxAgeDays := by
  unfold within at h
  split_ifs at h with hold
  exact ⟨h, Int.not_lt.mp hold⟩

end

/-- A chain of forwarders gives the address the first one wrote back at its last hop, and the
sender at its first; whoever asks for it and whenever, the last hop's address leads there only
while the stamp of the first one is young enough, and it holds one SRS0 address however long
the chain is. -/
theorem srs_chain (u : CaseData) (hmac : Text → Text → Bytes) (localPart : Text)
    (domain : MailDomain) (first second : Hop) (later : List Hop) (hlocal : localPart ≠ [])
    (h0 : afterSrs0 localPart = none) (h1 : afterSrs1 localPart = none)
    (hdomain : '=' ∉ domain.text) (hfirst : '=' ∉ first.domain.text) :
    ∃ guts original last final,
      final = later.getLastD second ∧
      forwardHop u hmac (localPart ++ '@' :: domain.text) first = some original ∧
      original = srs0 ++ guts ++ '@' :: first.domain.text ∧
      forwardAll u hmac original (second :: later) = some last ∧
      last = signed u hmac srs1 final.secret final.domain.text
        (encodeTimestamp second.now ++ '=' :: first.domain.text ++ '=' :: guts) ∧
      (∀ maxAge now, srsReverse u hmac last ⟨final.secret, maxAge, now⟩ =
        within maxAge second.now now (within maxAge first.now now (.ok original))) ∧
      (∀ maxAge now, srsReverse u hmac original ⟨first.secret, maxAge, now⟩ =
        within maxAge first.now now (.ok (localPart ++ '@' :: domain.text))) ∧
      ∀ opts address, srsReverse u hmac last opts = .ok address →
        address = original ∧
          ageOf first.now opts.now ≤ opts.maxAgeDays.getD defaultMaxAgeDays := by
  have hforward : forwardHop u hmac (localPart ++ '@' :: domain.text) first =
      some (srs0 ++ gutsOf u hmac first localPart domain.text ++ '@' :: first.domain.text) := by
    have hwritten := @srsForward_first localPart domain.text u hmac first.secret hlocal
      domain.ne_nil domain.at_notMem h0 h1 first.domain.text none first.now
    rw [signed_eq] at hwritten
    exact hwritten
  have hchain : forwardAll u hmac
      (srs0 ++ gutsOf u hmac first localPart domain.text ++ '@' :: first.domain.text)
        (second :: later) =
      some (chainAddress u hmac (chainPayload u hmac first second localPart domain.text)
        (later.getLastD second)) := by
    have hrest := @forwardAll_chainAddress u hmac
      (chainPayload u hmac first second localPart domain.text) second later
    unfold forwardAll at hrest ⊢
    rw [List.foldlM_cons, forwardHop_srs0]
    exact hrest
  refine ⟨_, _, _, _, rfl, hforward, rfl, hchain, rfl, fun maxAge now => ?_, fun maxAge now => ?_,
    fun opts address hok => ?_⟩
  · rw [srsReverse_chainAddress first second _ localPart hdomain hfirst, if_pos]
    · rfl
    · exact signedBy_self u hmac ⟨_, maxAge, now⟩ _ _
  · have hback := @srsReverse_first localPart domain.text u hmac first.secret hdomain first.domain
      maxAge first.now now
    rw [signed_eq] at hback
    exact hback
  · rw [srsReverse_chainAddress first second _ localPart hdomain hfirst] at hok
    split_ifs at hok
    obtain ⟨hinner, -⟩ := within_eq_ok hok
    obtain ⟨heq, hage⟩ := within_eq_ok hinner
    exact ⟨(SrsReverseResult.ok.inj heq).symm, hage⟩

/-- Three forwarders on three days, and a bounce that comes back on the fourth. -/
theorem srs_chain_bounce :
    ∃ original last,
      forwardHop CaseData.ascii (fun _ data => utf8Encode data) "ann@Example.org".toList
        ⟨"k1".toList, ⟨"a.example".toList, by decide, by decide⟩, 0⟩ = some original ∧
      forwardAll CaseData.ascii (fun _ data => utf8Encode data) original
        [⟨"k2".toList, ⟨"b.example".toList, by decide, by decide⟩, msPerDay⟩,
          ⟨"k3".toList, ⟨"c.example".toList, by decide, by decide⟩, 2 * msPerDay⟩] = some last ∧
      srsReverse CaseData.ascii (fun _ data => utf8Encode data) last
        ⟨"k3".toList, none, 3 * msPerDay⟩ = .ok original ∧
      srsReverse CaseData.ascii (fun _ data => utf8Encode data) original
        ⟨"k1".toList, none, 3 * msPerDay⟩ = .ok "ann@Example.org".toList := by
  obtain ⟨guts, original, last, final, rfl, hfirst, -, hlast, -, hback, hsender, -⟩ :=
    srs_chain CaseData.ascii (fun _ data => utf8Encode data) "ann".toList
      ⟨"Example.org".toList, by decide, by decide⟩
      ⟨"k1".toList, ⟨"a.example".toList, by decide, by decide⟩, 0⟩
      ⟨"k2".toList, ⟨"b.example".toList, by decide, by decide⟩, msPerDay⟩
      [⟨"k3".toList, ⟨"c.example".toList, by decide, by decide⟩, 2 * msPerDay⟩]
      (by decide) (by decide) (by decide) (by decide) (by decide)
  exact ⟨original, last, hfirst, hlast, hback none (3 * msPerDay), hsender none (3 * msPerDay)⟩

end Ionosphere.Srs
