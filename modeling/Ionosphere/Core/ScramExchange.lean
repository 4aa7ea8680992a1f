import Ionosphere.Core.ScramParse
import Ionosphere.Js.Digits

/-! The exchange as a whole: a client that keeps to the protocol is let in under its own name,
and no order of calls reaches the end but the one exchange, with a proof that holds. -/
namespace Ionosphere.Core

open Ionosphere.Js Ionosphere.Lib

variable {s : ScramServerSession} {h : Host}

/-- The hash functions, with the length of HMAC's digests, and what stored keys are made with. -/
structure ScramHost extends Host where
  pbkdf2 : Text → Bytes → Nat → Bytes
  saslprep : Text → Option Text
  hmac_length : ∀ k b, (hmac k b).length = scramKeyLen

def saltedPassword (h : ScramHost) (password : Text) (salt : Bytes) (iterations : Nat) : Bytes :=
  h.pbkdf2 ((h.saslprep password).getD password) salt iterations

def deriveScramKeys (h : ScramHost) (password : Text) (salt : Bytes) (iterations : Nat) :
    ScramStoredKeys :=
  let salted := saltedPassword h password salt iterations
  { iterations, salt
    storedKey := h.sha256 (h.hmac salted (utf8Encode "Client Key".toList))
    serverKey := h.hmac salted (utf8Encode "Server Key".toList) }

inductive BindingFlag where
  | n
  | y

def BindingFlag.text : BindingFlag → Text
  | .n => ['n']
  | .y => ['y']

/-- A client that keeps to the protocol and asks for no channel binding. -/
structure ScramClient where
  flag : BindingFlag
  authzid : Option Text
  username : Text
  password : Text
  nonce : Text
  nonce_ne_nil : nonce ≠ []
  nonce_chars : ∀ c ∈ nonce, isNonceChar c = true

namespace ScramClient

def gs2Header (c : ScramClient) : Text :=
  c.flag.text ++ ',' :: ((c.authzid.elim [] fun a => 'a' :: '=' :: escapeName a) ++ [','])

def bare (c : ScramClient) : Text :=
  'n' :: '=' :: (escapeName c.username ++ ',' :: 'r' :: '=' :: c.nonce)

def first (c : ScramClient) : Text := c.gs2Header ++ c.bare

/-- The nonce, the salt and the iteration count of a server-first message. -/
def readServerFirst (m : Text) : Option (Text × Bytes × Nat) :=
  match m.splitOn ',' with
  | [r, s, i] => do
    let r ← stripPrefix ['r', '='] r
    let s ← stripPrefix ['s', '='] s
    let i ← stripPrefix ['i', '='] i
    if i ≠ [] ∧ i.all isDigit then some (r, base64Lenient s, digitsValue 10 i) else none
  | _ => none

def withoutProof (c : ScramClient) (nonce : Text) : Text :=
  'c' :: '=' :: (base64Encode (utf8Encode c.gs2Header) ++ ',' :: 'r' :: '=' :: nonce)

def authMessage (c : ScramClient) (serverFirst nonce : Text) : Bytes :=
  utf8Encode (c.bare ++ ",".toList ++ serverFirst ++ ",".toList ++ c.withoutProof nonce)

/-- The last message of the client and the answer it expects of the server. A nonce that does
not go on from its own ends the exchange. -/
def respond (h : ScramHost) (c : ScramClient) (serverFirst : Text) : Option (Text × Text) :=
  match readServerFirst serverFirst with
  | none => none
  | some (nonce, salt, iterations) =>
    if c.nonce.isPrefixOf nonce then
      let salted := saltedPassword h c.password salt iterations
      let clientKey := h.hmac salted (utf8Encode "Client Key".toList)
      let message := c.authMessage serverFirst nonce
      let proof := xorBytes clientKey (h.hmac (h.sha256 clientKey) message)
      let serverKey := h.hmac salted (utf8Encode "Server Key".toList)
      some (c.withoutProof nonce ++ ",p=".toList ++ base64Encode proof,
        "v=".toList ++ base64Encode (h.hmac serverKey message))
    else none

end ScramClient

/-- A call of an engine, in any order; `nonce` is the draw of `serverNonce()` in it. -/
inductive ScramCall where
  | start (nonce clientFirst : Text)
  | provideKeys (keys : Option ScramStoredKeys)
  | final (clientFinal : Text)

namespace ScramServerSession

def call (h : Host) (s : ScramServerSession) : ScramCall → ScramServerSession × ScramStep
  | .start nonce clientFirst => s.start nonce clientFirst
  | .provideKeys keys => s.provideKeys h keys
  | .final clientFinal => s.final h clientFinal

def answers (h : Host) : ScramServerSession → List ScramCall → List ScramStep
  | _, [] => []
  | s, c :: cs => (s.call h c).2 :: answers h (s.call h c).1 cs

end ScramServerSession

/-- What the messages of an exchange have to do with each other when it succeeds. -/
structure Proved (h : Host) (secret : Bytes) (nonce first : Text) (keys : Option ScramStoredKeys)
    (final user : Text) (cf : ClientFirst) (withoutProof proof : Text) : Prop where
  first_eq : first = cf.gs2Header ++ cf.bare
  username : (attributeOf ['n'] cf.bare).bind unescapeName = some user
  clientNonce : attributeOf ['r'] cf.bare = some cf.clientNonce
  final_eq : final = withoutProof ++ ",p=".toList ++ proof
  final_last : ∀ a b, final = a ++ ",p=".toList ++ b → a.length ≤ withoutProof.length
  combinedNonce : attributeOf ['r'] withoutProof = some (cf.clientNonce ++ nonce)
  channelBinding : attributeOf ['c'] withoutProof = some (base64Encode (utf8Encode cf.gs2Header))
  proof_length : (base64Lenient proof).length = scramKeyLen
  holds : h.sha256 (xorBytes (base64Lenient proof)
      (h.hmac (keys.getD (fakeKeys h user secret)).storedKey (utf8Encode (cf.bare ++ ",".toList ++
        buildServerFirst cf.clientNonce nonce (keys.getD (fakeKeys h user secret)).salt
          (keys.getD (fakeKeys h user secret)).iterations ++ ",".toList ++ withoutProof)))) =
    (keys.getD (fakeKeys h user secret)).storedKey

theorem parseClientFirst_some {m : Text} {cf : ClientFirst} (h : parseClientFirst m = some cf) :
    m = cf.gs2Header ++ cf.bare ∧
      (attributeOf ['n'] cf.bare).bind unescapeName = some cf.username ∧
      attributeOf ['r'] cf.bare = some cf.clientNonce := by
  unfold parseClientFirst at h
  cases hflag : splitFirst ',' m with
  | none =>
    rw [hflag] at h
    cases h
  | some r =>
    obtain ⟨flag, afterFlag⟩ := r
    rw [hflag] at h
    dsimp only at h
    split_ifs at h
    cases hauth : splitFirst ',' afterFlag with
    | none =>
      rw [hauth] at h
      cases h
    | some r =>
      obtain ⟨authzid, bare⟩ := r
      rw [hauth] at h
      dsimp only at h
      cases hattrs : scramAttrs bare with
      | none =>
        rw [hattrs] at h
        cases h
      | some attrs =>
        rw [hattrs] at h
        dsimp only at h
        have hn := get_scramAttrs hattrs (show '=' ∉ ['n'] by decide)
        have hr := get_scramAttrs hattrs (show '=' ∉ ['r'] by decide)
        split at h
        · rename_i rawUser nonce hrawUser hnonce
          split_ifs at h with hempty hchars
          · cases huser : unescapeName rawUser with
            | none =>
              rw [huser] at h
              cases h
            | some username =>
              rw [huser] at h
              obtain rfl := Option.some.inj h
              obtain ⟨rfl, -⟩ := eq_of_splitFirst hflag
              obtain ⟨rfl, -⟩ := eq_of_splitFirst hauth
              refine ⟨by simp, ?_, ?_⟩
              · rw [← hn, hrawUser]
                exact huser
              · rw [← hr, hnonce]
          · cases huser : unescapeName rawUser with
            | none =>
              rw [huser] at h
              cases h
            | some username =>
              rw [huser] at h
              cases h
        · cases h

theorem verifyClientFinal_some {bare serverFirst final nonce gs2Header message : Text}
    {storedKey serverKey : Bytes}
    (hok : verifyClientFinal h bare serverFirst final nonce gs2Header storedKey serverKey =
      some message) :
    ∃ withoutProof proof, splitLast ",p=".toList final = some (withoutProof, proof) ∧
      attributeOf ['c'] withoutProof = some (base64Encode (utf8Encode gs2Header)) ∧
      attributeOf ['r'] withoutProof = some nonce ∧
      (base64Lenient proof).length = scramKeyLen ∧
      h.sha256 (xorBytes (base64Lenient proof) (h.hmac storedKey (utf8Encode
        (bare ++ ",".toList ++ serverFirst ++ ",".toList ++ withoutProof)))) = storedKey := by
  unfold verifyClientFinal at hok
  cases hsplit : splitLast ",p=".toList final with
  | none =>
    rw [hsplit] at hok
    cases hok
  | some r =>
    obtain ⟨withoutProof, proof⟩ := r
    rw [hsplit] at hok
    dsimp only at hok
    cases hattrs : scramAttrs withoutProof with
    | none =>
      rw [hattrs] at hok
      cases hok
    | some attrs =>
      rw [hattrs] at hok
      dsimp only at hok
      have hc := get_scramAttrs hattrs (show '=' ∉ ['c'] by decide)
      have hr := get_scramAttrs hattrs (show '=' ∉ ['r'] by decide)
      split_ifs at hok with hbinding hnonce hlength hproof
      exact ⟨withoutProof, proof, rfl, hc ▸ not_not.mp hbinding, hr ▸ not_not.mp hnonce,
        not_not.mp hlength, hproof⟩

namespace ScramServerSession

theorem call_closed (h : Host) (hs : s.state = .closed) (c : ScramCall) :
    s.call h c = s.fail := by
  cases c with
  | start nonce first => rw [call, start, if_pos (by rw [hs]; decide)]
  | provideKeys keys => rw [call, provideKeys, if_pos (by rw [hs]; decide)]
  | final m =>
    rw [call, final]
    cases s.keys with
    | none => rfl
    | some k => exact if_pos (by rw [hs]; decide)

theorem answers_closed (h : Host) (hs : s.state = .closed)
    (cs : List ScramCall) : ∀ a ∈ answers h s cs, ∃ user, a = .failed user := by
  induction cs generalizing s with
  | nil => exact List.forall_mem_nil _
  | cons c cs ih =>
    rw [answers, call_closed h hs c, List.forall_mem_cons]
    exact ⟨⟨_, rfl⟩, ih rfl⟩

theorem not_done_of_closed (hs : s.state = .closed)
    {cs : List ScramCall} {i : Nat} {user message : Text} :
    (answers h s cs)[i]? ≠ some (.done user message) := by
  intro hget
  obtain ⟨u, hu⟩ := answers_closed h hs cs _ (List.mem_of_getElem? hget)
  cases hu

theorem call_init (h : Host) (hs : s.state = .init) (c : ScramCall) :
    s.call h c = s.fail ∨ ∃ nonce first cf, c = .start nonce first ∧
      parseClientFirst first = some cf ∧
      s.call h c = ({ s with
        clientFirstBare := cf.bare, gs2Header := cf.gs2Header, username := cf.username,
        clientNonce := cf.clientNonce, serverNoncePart := nonce,
        fullNonce := cf.clientNonce ++ nonce, state := .awaitingKeys }, .lookup cf.username) := by
  cases c with
  | start nonce first =>
    rw [call, start, if_neg (not_not.mpr hs)]
    cases hparse : parseClientFirst first with
    | none => exact .inl rfl
    | some cf => exact .inr ⟨nonce, first, cf, rfl, hparse, rfl⟩
  | provideKeys keys => exact .inl (if_pos (by rw [hs]; decide))
  | final m =>
    refine .inl ?_
    rw [call, final]
    cases s.keys with
    | none => rfl
    | some k => exact if_pos (by rw [hs]; decide)

theorem call_awaitingKeys (h : Host) (hs : s.state = .awaitingKeys)
    (c : ScramCall) :
    s.call h c = s.fail ∨ ∃ keys, c = .provideKeys keys ∧ s.call h c =
      ({ s with
        keys := some (keys.getD (fakeKeys h s.username s.decoySecret))
        serverFirst := buildServerFirst s.clientNonce s.serverNoncePart
          (keys.getD (fakeKeys h s.username s.decoySecret)).salt
          (keys.getD (fakeKeys h s.username s.decoySecret)).iterations
        state := .awaitingFinal },
      .send (buildServerFirst s.clientNonce s.serverNoncePart
        (keys.getD (fakeKeys h s.username s.decoySecret)).salt
        (keys.getD (fakeKeys h s.username s.decoySecret)).iterations)) := by
  cases c with
  | start nonce first => exact .inl (if_pos (by rw [hs]; decide))
  | provideKeys keys => exact .inr ⟨keys, rfl, if_neg (not_not.mpr hs)⟩
  | final m =>
    refine .inl ?_
    rw [call, final]
    cases s.keys with
    | none => rfl
    | some k => exact if_pos (by rw [hs]; decide)

theorem call_awaitingFinal (h : Host) {k : ScramStoredKeys}
    (hs : s.state = .awaitingFinal) (hk : s.keys = some k) (c : ScramCall) :
    s.call h c = s.fail ∨ ∃ m message, c = .final m ∧
      verifyClientFinal h s.clientFirstBare s.serverFirst m s.fullNonce s.gs2Header k.storedKey
        k.serverKey = some message ∧
      s.call h c = ({ s with state := .closed }, .done s.username message) := by
  cases c with
  | start nonce first => exact .inl (if_pos (by rw [hs]; decide))
  | provideKeys keys => exact .inl (if_pos (by rw [hs]; decide))
  | final m =>
    rw [call, final, hk]
    dsimp only
    rw [if_neg (not_not.mpr hs)]
    cases hverify : verifyClientFinal h s.clientFirstBare s.serverFirst m s.fullNonce s.gs2Header
        k.storedKey k.serverKey with
    | none => exact .inl rfl
    | some message => exact .inr ⟨m, message, rfl, hverify, rfl⟩

theorem not_done_of_fail {c : ScramCall}
    (hc : s.call h c = s.fail) {cs : List ScramCall} {i : Nat} {user message : Text} :
    (answers h s (c :: cs))[i]? ≠ some (.done user message) := by
  rw [answers, hc]
  cases i with
  | zero => simp [fail]
  | succ i =>
    rw [List.getElem?_cons_succ]
    exact not_done_of_closed rfl

section

variable {calls : List ScramCall} {i : Nat} {user message : Text}

theorem done_awaitingFinal {k : ScramStoredKeys} (hs : s.state = .awaitingFinal)
    (hk : s.keys = some k) (hdone : (answers h s calls)[i]? = some (.done user message)) :
    i = 0 ∧ user = s.username ∧ ∃ m rest, calls = .final m :: rest ∧
      verifyClientFinal h s.clientFirstBare s.serverFirst m s.fullNonce s.gs2Header k.storedKey
        k.serverKey = some message := by
  cases calls with
  | nil => cases hdone
  | cons c calls =>
    rcases call_awaitingFinal h hs hk c with hfail | ⟨m, sent, rfl, hverify, hcall⟩
    · exact absurd hdone (not_done_of_fail hfail)
    · rw [answers, hcall] at hdone
      cases i with
      | zero =>
        obtain ⟨huser, hsent⟩ := ScramStep.done.inj (Option.some.inj hdone)
        exact ⟨rfl, huser.symm, m, calls, rfl, hsent ▸ hverify⟩
      | succ i =>
        rw [List.getElem?_cons_succ] at hdone
        exact absurd hdone (not_done_of_closed rfl)

theorem done_awaitingKeys (hs : s.state = .awaitingKeys)
    (hdone : (answers h s calls)[i]? = some (.done user message)) :
    i = 1 ∧ user = s.username ∧ ∃ keys m rest, calls = .provideKeys keys :: .final m :: rest ∧
      verifyClientFinal h s.clientFirstBare (buildServerFirst s.clientNonce s.serverNoncePart
          (keys.getD (fakeKeys h s.username s.decoySecret)).salt
          (keys.getD (fakeKeys h s.username s.decoySecret)).iterations) m s.fullNonce s.gs2Header
        (keys.getD (fakeKeys h s.username s.decoySecret)).storedKey
        (keys.getD (fakeKeys h s.username s.decoySecret)).serverKey = some message := by
  cases calls with
  | nil => cases hdone
  | cons c calls =>
    rcases call_awaitingKeys h hs c with hfail | ⟨keys, rfl, hcall⟩
    · exact absurd hdone (not_done_of_fail hfail)
    · rw [answers, hcall] at hdone
      cases i with
      | zero => cases hdone
      | succ i =>
        rw [List.getElem?_cons_succ] at hdone
        obtain ⟨rfl, huser, m, rest, rfl, hverify⟩ := done_awaitingFinal rfl rfl hdone
        exact ⟨rfl, huser, keys, m, rest, rfl, hverify⟩

theorem done_only {secret : Bytes}
    (hdone : (answers h (new secret) calls)[i]? = some (.done user message)) :
    i = 2 ∧ ∃ nonce first keys final rest cf withoutProof proof,
      calls = .start nonce first :: .provideKeys keys :: .final final :: rest ∧
      Proved h secret nonce first keys final user cf withoutProof proof := by
  cases calls with
  | nil => cases hdone
  | cons c calls =>
    have hnew : (new secret).state = .init := rfl
    rcases call_init h hnew c with hfail | ⟨nonce, first, cf, rfl, hparse, hcall⟩
    · exact absurd hdone (not_done_of_fail hfail)
    · rw [answers, hcall] at hdone
      cases i with
      | zero => cases hdone
      | succ i =>
        rw [List.getElem?_cons_succ] at hdone
        obtain ⟨rfl, huser, keys, m, rest, rfl, hverify⟩ := done_awaitingKeys rfl hdone
        obtain ⟨withoutProof, proof, hsplit, hc, hr, hlen, hholds⟩ := verifyClientFinal_some hverify
        obtain ⟨hfirst, hname, hnonce⟩ := parseClientFirst_some hparse
        obtain ⟨hfinal, hlast⟩ := splitLast_some hsplit (by decide)
        have hcf : user = cf.username := huser
        refine ⟨rfl, nonce, first, keys, m, rest, cf, withoutProof, proof, rfl, ?_⟩
        exact ⟨hfirst, hcf ▸ hname, hnonce, hfinal, hlast, hr, hc, hlen, hcf ▸ hholds⟩

end

end ScramServerSession

theorem xorBytes_cancel {a : Bytes} (b : Bytes) (h : a.length = scramKeyLen) :
    xorBytes (xorBytes a b) b = a := by
  refine List.ext_getElem (by simp [xorBytes, h]) fun i hi hi' => ?_
  have hx : i < scramKeyLen := h ▸ hi'
  simp only [xorBytes, List.getD_eq_getElem?_getD, List.getElem_map, List.getElem_range,
    List.getElem?_map, List.getElem?_range hx, Option.map_some, Option.getD_some,
    List.getElem?_eq_getElem hi']
  rw [UInt8.xor_assoc, UInt8.xor_self, UInt8.xor_zero]

theorem comma_notMem_base64 (b : Bytes) : ',' ∉ base64Encode b := fun hmem =>
  base64Encode_forall (P := (· ≠ ',')) (by decide) (by decide) b ',' hmem rfl

theorem comma_notMem_natText (n : Nat) : ',' ∉ natText n := fun hmem =>
  absurd (natText_digits n ',' hmem).1 (by decide)

theorem splitOn_plain {a : Text} (ha : ',' ∉ a) : a.splitOn ',' = [a] := by
  have hsplit : (join [','] [a]).splitOn ',' = [a] :=
    List.splitOn_intercalate ',' (by simpa using ha) (by simp)
  simpa [join] using hsplit

theorem splitOn_append {a : Text} (ha : ',' ∉ a) (b : Text) :
    (a ++ ',' :: b).splitOn ',' = a :: b.splitOn ',' := by
  rw [List.splitOn_append_cons_self, splitOn_plain ha, List.singleton_append]

theorem scramAttrs_two {k l : Char} {v w : Text} (hv : ',' ∉ v) (hw : ',' ∉ w) (hk : k ≠ ',')
    (hl : l ≠ ',') (hk' : k ≠ '=') (hl' : l ≠ '=') (hkl : k ≠ l) :
    scramAttrs (k :: '=' :: (v ++ ',' :: l :: '=' :: w)) = some [([k], v), ([l], w)] := by
  have hsplit : (k :: '=' :: (v ++ ',' :: l :: '=' :: w)).splitOn ',' =
      [k :: '=' :: v, l :: '=' :: w] := by
    have hfirst : ',' ∉ k :: '=' :: v := by
      simp [hv, hk.symm]
    have hsecond : ',' ∉ l :: '=' :: w := by
      simp [hw, hl.symm]
    rw [← splitOn_plain hsecond, ← splitOn_append hfirst]
    rfl
  rw [scramAttrs, hsplit]
  simp [splitFirst, hk', hl', hkl, Assoc.get, Assoc.set]

namespace ScramClient

variable (h : ScramHost) (c : ScramClient)

theorem comma_notMem_nonce : ',' ∉ c.nonce := fun hmem =>
  absurd (c.nonce_chars ',' hmem) (by decide)

theorem parseClientFirst_first :
    parseClientFirst c.first = some ⟨c.gs2Header, c.bare, c.username, c.nonce⟩ := by
  have hauth : ',' ∉ c.authzid.elim [] fun a => 'a' :: '=' :: escapeName a := by
    cases c.authzid with
    | none => simp
    | some a => simp [comma_notMem_escapeName]
  have hflag : c.flag.text = ['n'] ∨ c.flag.text = ['y'] := by
    cases c.flag
    · exact .inl rfl
    · exact .inr rfl
  have hfirst : splitFirst ',' c.first = some (c.flag.text,
      (c.authzid.elim [] fun a => 'a' :: '=' :: escapeName a) ++ ',' :: c.bare) := by
    have hcomma : ',' ∉ c.flag.text := by
      rcases hflag with hn | hy
      · rw [hn]
        decide
      · rw [hy]
        decide
    rw [← splitFirst_of_notMem hcomma]
    simp [first, gs2Header]
  have hattrs : scramAttrs c.bare = some [(['n'], escapeName c.username), (['r'], c.nonce)] :=
    scramAttrs_two (comma_notMem_escapeName c.username) c.comma_notMem_nonce (by decide)
      (by decide) (by decide) (by decide) (by decide)
  have hchars : c.nonce.all isNonceChar = true := List.all_eq_true.mpr c.nonce_chars
  rw [parseClientFirst, hfirst]
  simp [hflag, splitFirst_of_notMem hauth, hattrs, Assoc.get, c.nonce_ne_nil,
    unescapeName_escapeName, hchars, gs2Header]

theorem readServerFirst_build (random salt : Bytes) (iterations : Nat) :
    readServerFirst (buildServerFirst c.nonce (base64Encode random) salt iterations) =
      some (c.nonce ++ base64Encode random, salt, iterations) := by
  have hsplit : (buildServerFirst c.nonce (base64Encode random) salt iterations).splitOn ',' =
      ['r' :: '=' :: (c.nonce ++ base64Encode random), 's' :: '=' :: base64Encode salt,
        'i' :: '=' :: natText iterations] := by
    have hr : ',' ∉ 'r' :: '=' :: (c.nonce ++ base64Encode random) := by
      simp [c.comma_notMem_nonce, comma_notMem_base64]
    have hs : ',' ∉ 's' :: '=' :: base64Encode salt := by
      simp [comma_notMem_base64]
    have hi : ',' ∉ 'i' :: '=' :: natText iterations := by
      simp [comma_notMem_natText]
    rw [← splitOn_plain hi, ← splitOn_append hs, ← splitOn_append hr]
    delta buildServerFirst
    simp
  have hdigits : ∀ d ∈ natText iterations, isDigit d = true := by
    intro d hd
    simpa [isDigit] using natText_digits iterations d hd
  rw [readServerFirst, hsplit]
  simp only [stripPrefix, List.isPrefixOf]
  simp [natText_ne_nil]
  exact ⟨hdigits, base64Lenient_encode salt, digitsValue_natText iterations⟩

theorem verifyClientFinal_proof (serverFirst nonce : Text) (hnonce : ',' ∉ nonce)
    {clientKey : Bytes} (hlen : clientKey.length = scramKeyLen) (serverKey : Bytes) :
    verifyClientFinal h.toHost c.bare serverFirst
        (c.withoutProof nonce ++ ",p=".toList ++ base64Encode (xorBytes clientKey
          (h.hmac (h.sha256 clientKey) (c.authMessage serverFirst nonce))))
        nonce c.gs2Header (h.sha256 clientKey) serverKey =
      some ("v=".toList ++ base64Encode (h.hmac serverKey (c.authMessage serverFirst nonce))) := by
  generalize hsig : h.hmac (h.sha256 clientKey) (c.authMessage serverFirst nonce) = signature
  have hsplit : splitLast ",p=".toList
      (c.withoutProof nonce ++ ",p=".toList ++ base64Encode (xorBytes clientKey signature)) =
        some (c.withoutProof nonce, base64Encode (xorBytes clientKey signature)) :=
    splitLast_append (by decide) (comma_notMem_base64 _) (c.withoutProof nonce)
  have hattrs : scramAttrs (c.withoutProof nonce) =
      some [(['c'], base64Encode (utf8Encode c.gs2Header)), (['r'], nonce)] :=
    scramAttrs_two (comma_notMem_base64 _) hnonce (by decide) (by decide) (by decide) (by decide)
      (by decide)
  have hproof : (xorBytes clientKey signature).length = scramKeyLen := by
    simp [xorBytes]
  rw [verifyClientFinal, hsplit]
  dsimp only
  rw [hattrs]
  dsimp only
  rw [if_neg (by simp [Assoc.get]), if_neg (by simp [Assoc.get]), base64Lenient_encode,
    if_neg (by simp [hproof]), ← authMessage, hsig, xorBytes_cancel signature hlen, if_pos rfl]

theorem respond_verified (random salt : Bytes) (iterations : Nat) : ∃ final serverFinal,
    c.respond h (buildServerFirst c.nonce (base64Encode random) salt iterations) =
      some (final, serverFinal) ∧
    verifyClientFinal h.toHost c.bare
      (buildServerFirst c.nonce (base64Encode random) salt iterations) final
      (c.nonce ++ base64Encode random) c.gs2Header
      (deriveScramKeys h c.password salt iterations).storedKey
      (deriveScramKeys h c.password salt iterations).serverKey = some serverFinal := by
  have hread := c.readServerFirst_build random salt iterations
  generalize buildServerFirst c.nonce (base64Encode random) salt iterations = serverFirst at hread ⊢
  have hnonce : ',' ∉ c.nonce ++ base64Encode random := by
    simp [c.comma_notMem_nonce, comma_notMem_base64]
  have hprefix : c.nonce.isPrefixOf (c.nonce ++ base64Encode random) = true :=
    List.isPrefixOf_iff_prefix.mpr (List.prefix_append ..)
  refine ⟨_, _, ?_, c.verifyClientFinal_proof h serverFirst _ hnonce (h.hmac_length ..) _⟩
  rw [respond, hread]
  dsimp only
  rw [if_pos hprefix]
  rfl

end ScramClient

open ScramServerSession in
/-- A client that keeps to the protocol is let in under its own name and accepts the server's
answer. Whatever the calls are, only a start, keys and a final message whose proof holds for
this exchange lead to the end, and only once. -/
theorem scram_server (h : ScramHost) (secret : Bytes) :
    (∀ (c : ScramClient) (random salt : Bytes) (iterations : Nat),
      ∃ serverFirst final serverFinal, c.respond h serverFirst = some (final, serverFinal) ∧
        answers h.toHost (new secret) [.start (base64Encode random) c.first,
          .provideKeys (some (deriveScramKeys h c.password salt iterations)), .final final] =
        [.lookup c.username, .send serverFirst, .done c.username serverFinal]) ∧
    ∀ (calls : List ScramCall) (i : Nat) (user message : Text),
      (answers h.toHost (new secret) calls)[i]? = some (.done user message) →
      i = 2 ∧ ∃ nonce first keys final rest cf withoutProof proof,
        calls = .start nonce first :: .provideKeys keys :: .final final :: rest ∧
        Proved h.toHost secret nonce first keys final user cf withoutProof proof := by
  refine ⟨fun c random salt iterations => ?_, fun calls i user message => done_only⟩
  obtain ⟨final, serverFinal, hresp, hverify⟩ := c.respond_verified h random salt iterations
  refine ⟨_, final, serverFinal, hresp, ?_⟩
  have hstart : start (new secret) (base64Encode random) c.first =
      ({ new secret with
        clientFirstBare := c.bare, gs2Header := c.gs2Header, username := c.username,
        clientNonce := c.nonce, serverNoncePart := base64Encode random,
        fullNonce := c.nonce ++ base64Encode random, state := .awaitingKeys },
      .lookup c.username) := by
    have hinit : ¬ (new secret).state ≠ .init := not_not.mpr rfl
    rw [start, if_neg hinit, c.parseClientFirst_first]
  rw [answers, call, hstart, answers, call, provideKeys]
  dsimp only
  rw [if_neg (not_not.mpr rfl)]
  dsimp only [Option.getD_some]
  have hsalt : (deriveScramKeys h c.password salt iterations).salt = salt := rfl
  have hcount : (deriveScramKeys h c.password salt iterations).iterations = iterations := rfl
  rw [answers, call, ScramServerSession.final, hsalt, hcount]
  dsimp only
  rw [if_neg (not_not.mpr rfl), hverify]
  rfl

/-- The exchange of the user `a,b=c` with the password `pencil`. -/
def escapedClient : ScramClient where
  flag := .n
  authzid := none
  username := "a,b=c".toList
  password := "pencil".toList
  nonce := "rOprNGfwEbeRWgbNEkqO".toList
  nonce_ne_nil := by decide
  nonce_chars := by decide

def escapedMessage : Bytes :=
  utf8Encode ("n=a=2Cb=3Dc,r=rOprNGfwEbeRWgbNEkqO,".toList ++
    "r=rOprNGfwEbeRWgbNEkqOAAECAwQFBgcICQoLDA0ODxAR,s=c2FsdHNhbHQ=,i=4096,".toList ++
    "c=biws,r=rOprNGfwEbeRWgbNEkqOAAECAwQFBgcICQoLDA0ODxAR".toList)

/-- The values of HMAC-SHA-256 that this exchange asks for. -/
def recordedHmac (key message : Bytes) : Bytes :=
  let salted := base64Lenient "OrYiub+OsvUETgTIqMRCilvleEHuAG5SklBT/OiB0Cc=".toList
  let storedKey := base64Lenient "YtirBsK55C7ugqEIk/zgQjxnQARZnZ6vkDRV/mLlwE4=".toList
  let serverKey := base64Lenient "KqMO3AiksTMRLGZOTEjkOzOVyQoednEDmDre2EulssE=".toList
  if key = salted ∧ message = utf8Encode "Client Key".toList then
    base64Lenient "sdYPTbE+d7hoERJBx/Eb8Lx7j/3pKwqVM41V6Mp95ts=".toList
  else if key = salted ∧ message = utf8Encode "Server Key".toList then serverKey
  else if key = storedKey ∧ message = escapedMessage then
    base64Lenient "wXGxfzFi+Vmj3tcDLpLBZUxSDX9BfDY6zaFgFzUqbos=".toList
  else if key = serverKey ∧ message = escapedMessage then
    base64Lenient "PSj4rQV2q/sd5zzTobsm8GfDv/uGLuib51eni7xOtS0=".toList
  else List.replicate scramKeyLen 0

theorem recordedHmac_length (key message : Bytes) :
    (recordedHmac key message).length = scramKeyLen := by
  unfold recordedHmac
  dsimp only
  split_ifs <;> decide +kernel

def recordedHost : ScramHost where
  cases := ⟨id, id⟩
  sha256 b :=
    if b = base64Lenient "sdYPTbE+d7hoERJBx/Eb8Lx7j/3pKwqVM41V6Mp95ts=".toList then
      base64Lenient "YtirBsK55C7ugqEIk/zgQjxnQARZnZ6vkDRV/mLlwE4=".toList
    else []
  hmac := recordedHmac
  serverNonce _ := []
  pbkdf2 password salt iterations :=
    if password = "pencil".toList ∧ salt = utf8Encode "saltsalt".toList ∧ iterations = 4096 then
      base64Lenient "OrYiub+OsvUETgTIqMRCilvleEHuAG5SklBT/OiB0Cc=".toList
    else []
  saslprep := some
  hmac_length := recordedHmac_length

theorem scram_server_escaped :
    ∃ serverFirst final serverFinal,
      escapedClient.respond recordedHost serverFirst = some (final, serverFinal) ∧
      serverFinal = "v=PSj4rQV2q/sd5zzTobsm8GfDv/uGLuib51eni7xOtS0=".toList ∧
      ScramServerSession.answers recordedHost.toHost (.new [])
        [.start (base64Encode ((List.range 18).map UInt8.ofNat)) escapedClient.first,
          .provideKeys (some (deriveScramKeys recordedHost "pencil".toList
            (utf8Encode "saltsalt".toList) 4096)), .final final] =
        [.lookup "a,b=c".toList, .send serverFirst, .done "a,b=c".toList serverFinal] := by
  obtain ⟨serverFirst, final, serverFinal, hresp, hanswers⟩ := (scram_server recordedHost []).1
    escapedClient ((List.range 18).map UInt8.ofNat) (utf8Encode "saltsalt".toList) 4096
  refine ⟨serverFirst, final, serverFinal, hresp, ?_, hanswers⟩
  have hsent : serverFirst =
      "r=rOprNGfwEbeRWgbNEkqOAAECAwQFBgcICQoLDA0ODxAR,s=c2FsdHNhbHQ=,i=4096".toList := by
    have hsecond := congrArg (fun l : List ScramStep => l[1]?) hanswers
    simp only [ScramServerSession.answers, List.getElem?_cons_succ, List.getElem?_cons_zero,
      Option.some.injEq] at hsecond
    refine (ScramStep.send.inj (hsecond.symm.trans ?_))
    decide +kernel
  have hproof : (escapedClient.respond recordedHost
      "r=rOprNGfwEbeRWgbNEkqOAAECAwQFBgcICQoLDA0ODxAR,s=c2FsdHNhbHQ=,i=4096".toList).map
        (·.2) = some "v=PSj4rQV2q/sd5zzTobsm8GfDv/uGLuib51eni7xOtS0=".toList := by
    decide +kernel
  rw [hsent] at hresp
  rw [hresp] at hproof
  exact Option.some.inj hproof

end Ionosphere.Core
