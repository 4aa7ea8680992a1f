import Ionosphere.ManageSieve.Moments

/-! STARTTLS in the ManageSieve engine. An accepted STARTTLS drops the queue and stops the
events of its chunk, and the handshake gives the engine a new reader; all that is left of
the plaintext session is the SCRAM exchange it had, which nothing reads before the next
AUTHENTICATE replaces it. -/
namespace Ionosphere.ManageSieve

open Ionosphere.Js Ionosphere.Core Ionosphere.Lib

variable {e : Engine}

variable {e' : Engine}
open Ionosphere.Imap (LinePart Reader ReaderEvent)

/-- The client's next line, or the stored keys, go to the SCRAM exchange. -/
def readsScram (e : Engine) : Bool :=
  e.pending = some (.authLine .scram) || e.pending = some .scramKeys

theorem readsScram_of_none (h : e.pending = none) : readsScram e = false := by
  simp [readsScram, h]

/-- The same engine but for an exchange that nothing reads. -/
inductive Agree (e : Engine) : Engine → Prop
  | intro (scram : Option ScramExchange) (h : readsScram e = true → scram = e.scram) :
      Agree e { e with scram := scram }

namespace Agree

theorem refl (e : Engine) : Agree e e := .intro e.scram fun _ => rfl

theorem queued (h : Agree e e') : e'.queued = e.queued := by
  cases h
  rfl

theorem closed (h : Agree e e') : e'.closed = e.closed := by
  cases h
  rfl

theorem awaitingTls (h : Agree e e') : e'.awaitingTls = e.awaitingTls := by
  cases h
  rfl

theorem canDrain (h : Agree e e') :
    ManageSieve.canDrain e' = ManageSieve.canDrain e := by
  cases h
  rfl

end Agree

/-- The same actions, and engines that agree. -/
structure Alike (r r' : Engine × List ManageSieveAction) : Prop where
  engine : Agree r.1 r'.1
  actions : r'.2 = r.2

theorem Alike.refl (r : Engine × List ManageSieveAction) : Alike r r := ⟨.refl r.1, rfl⟩

theorem Alike.unread (h : readsScram e = false) (scram : Option ScramExchange)
    (acts : List ManageSieveAction) : Alike (e, acts) ({ e with scram := scram }, acts) := by
  refine ⟨.intro scram fun hreads => ?_, rfl⟩
  rw [h] at hreads
  cases hreads

section

variable (s : Setup)

theorem decodePlain_alike (b64 : Text) (h : e.pending = none)
    (scram : Option ScramExchange) :
    Alike (decodePlain b64 e) (decodePlain b64 { e with scram := scram }) := by
  unfold decodePlain
  cases decodeSaslBase64 b64 with
  | none => exact .unread (readsScram_of_none h) scram _
  | some bytes =>
    dsimp only
    cases parseSaslPlain bytes with
    | none => exact .unread (readsScram_of_none h) scram _
    | some creds => exact .unread (e := { e with pending := some (.auth .plain) }) rfl scram _

theorem cmdAuthenticate_alike (nonce : Text) (values : List Text)
    (h : e.pending = none) (scram : Option ScramExchange) :
    Alike (cmdAuthenticate s nonce values e)
      (cmdAuthenticate s nonce values { e with scram := scram }) := by
  unfold cmdAuthenticate
  have hrefused : ∀ acts, Alike (e, acts) ({ e with scram := scram }, acts) :=
    .unread (readsScram_of_none h) scram
  by_cases hauthed : e.authed = true
  · simp only [hauthed, if_true]
    rw [← hauthed]
    exact hrefused _
  · have hauthed' : e.authed = false := by simpa using hauthed
    by_cases hallowed : (!authAllowed s e) = true
    · have hallowed' : (!authAllowed s { e with scram := scram }) = true := hallowed
      rw [if_neg hauthed, if_neg hauthed, if_pos hallowed, if_pos hallowed']
      exact hrefused _
    · have hallowed' : ¬ (!authAllowed s { e with scram := scram }) = true := hallowed
      rw [if_neg hauthed, if_neg hauthed, if_neg hallowed, if_neg hallowed']
      cases saslOf s (toUpperCase s.host.cases (values[1]?.getD [])) with
      | none => exact hrefused _
      | some sasl =>
        cases sasl with
        | scram => exact .refl _
        | plain =>
          dsimp only
          cases values[2]? with
          | none => exact .unread (e := { e with pending := some (.authLine .plain) }) rfl scram _
          | some initial => exact decodePlain_alike initial h scram

theorem ask_alike {p : Pending} (hp : p ≠ .authLine .scram ∧ p ≠ .scramKeys)
    (action : ManageSieveAction) (e : Engine) (scram : Option ScramExchange) :
    Alike (ask p action e) (ask p action { e with scram := scram }) := by
  refine .unread (e := { e with pending := some p }) ?_ scram _
  simp [readsScram, hp.1, hp.2]

theorem scriptCommand_alike (values : List Text) (verb : ScriptVerb)
    (h : e.pending = none) (scram : Option ScramExchange) :
    Alike (scriptCommand s values verb e) (scriptCommand s values verb { e with scram := scram }) := by
  have hrefused : ∀ acts, Alike (e, acts) ({ e with scram := scram }, acts) :=
    .unread (readsScram_of_none h) scram
  cases verb with
  | putScript =>
    simp only [scriptCommand, cmdPutScript]
    cases values[1]? with
    | none => exact hrefused _
    | some name =>
      cases values[2]? with
      | none => exact hrefused _
      | some content => exact ask_alike (by simp) _ e scram
  | checkScript =>
    simp only [scriptCommand, cmdCheckScript]
    cases values[1]? with
    | none => exact hrefused _
    | some content => exact ask_alike (by simp) _ e scram
  | listScripts => exact ask_alike (by simp) _ e scram
  | setActive => exact ask_alike (by simp) _ e scram
  | getScript =>
    simp only [scriptCommand, cmdGetScript]
    cases values[1]? with
    | none => exact hrefused _
    | some name => exact ask_alike (by simp) _ e scram
  | deleteScript =>
    simp only [scriptCommand, cmdDeleteScript]
    cases values[1]? with
    | none => exact hrefused _
    | some name => exact ask_alike (by simp) _ e scram
  | renameScript =>
    simp only [scriptCommand, cmdRenameScript]
    cases values[1]? with
    | none => exact hrefused _
    | some src =>
      cases values[2]? with
      | none => exact hrefused _
      | some dest => exact ask_alike (by simp) _ e scram
  | haveSpace =>
    simp only [scriptCommand, cmdHaveSpace]
    split_ifs
    · exact hrefused _
    · exact hrefused _

theorem handleLine_alike (nonce : Text) (parts : List LinePart)
    (h : e.pending = none) (scram : Option ScramExchange) :
    Alike (handleLine s nonce parts e) (handleLine s nonce parts { e with scram := scram }) := by
  have hrefused : ∀ acts, Alike (e, acts) ({ e with scram := scram }, acts) :=
    .unread (readsScram_of_none h) scram
  unfold handleLine
  cases parseParts parts with
  | nil => exact hrefused _
  | cons name values =>
    dsimp only
    cases verbOf (toUpperCase s.host.cases name) with
    | none =>
      dsimp only
      split_ifs
      · exact hrefused _
      · exact hrefused _
    | some verb =>
      cases verb with
      | logout =>
        exact .unread (e := { e with closed := true }) (readsScram_of_none h) scram _
      | noop => exact hrefused _
      | capability => exact hrefused _
      | authenticate => exact cmdAuthenticate_alike s nonce (name :: values) h scram
      | startTls =>
        simp only [cmdStartTls]
        split_ifs
        · exact hrefused _
        · exact hrefused _
        · exact hrefused _
        · exact .unread (e := { e with awaitingTls := true, queued := [] }) (readsScram_of_none h)
            scram _
      | script verb =>
        dsimp only
        split_ifs
        · exact hrefused _
        · exact scriptCommand_alike s (name :: values) verb h scram

theorem Alike.chain {r r' q q' : Engine × List ManageSieveAction} (h : Alike r r')
    (hq : Alike q q') : Alike (q.1, r.2 ++ q.2) (q'.1, r'.2 ++ q'.2) :=
  ⟨hq.engine, by rw [h.actions, hq.actions]⟩

theorem drainLoop_alike (nonce : Nat → Text) (fuel : Nat) (h : Agree e e') :
    Alike (drainLoop s fuel nonce e) (drainLoop s fuel nonce e') := by
  induction fuel generalizing nonce e e' with
  | zero => exact ⟨h, rfl⟩
  | succ fuel ih =>
    unfold drainLoop
    rw [h.queued]
    cases e.queued with
    | nil => exact ⟨h, rfl⟩
    | cons parts queued =>
      dsimp only
      rw [h.canDrain]
      split_ifs with hstop
      · exact ⟨h, rfl⟩
      · have hcan : canDrain e = true := by simpa using hstop
        obtain ⟨scram, -⟩ := h
        have hline := handleLine_alike s (nonce 0) parts (e := { e with queued := queued })
          (canDrain_iff.mp hcan).1 scram
        exact hline.chain (ih (fun i => nonce (i + 1)) hline.engine)

theorem resumed_alike (nonce : Nat → Text) {r r' : Engine × List ManageSieveAction}
    (h : Alike r r') : Alike (resumed s nonce r) (resumed s nonce r') := by
  refine h.chain ?_
  unfold drain
  rw [h.engine.queued]
  exact drainLoop_alike s nonce _ h.engine

theorem onEvent_alike (nonce : Nat → Text) (ev : ReaderEvent) (h : Agree e e') :
    Alike (onEvent s nonce ev e) (onEvent s nonce ev e') := by
  obtain ⟨scram, hscram⟩ := h
  cases ev with
  | «continue» size => exact ⟨.intro scram hscram, rfl⟩
  | error message => exact ⟨.intro scram hscram, rfl⟩
  | line parts =>
    simp only [onEvent]
    split
    · rename_i sasl hpending
      split_ifs with hstar
      · exact resumed_alike s nonce (.refl _)
      · cases sasl with
        | scram =>
          have hread : scram = e.scram := hscram (by simp [readsScram, hpending])
          rw [hread]
          exact .refl _
        | plain => exact decodePlain_alike _ (e := { e with pending := none }) rfl scram
    · exact ⟨.intro (e := { e with queued := e.queued ++ [parts] }) scram hscram, rfl⟩
    · rename_i hpending
      exact handleLine_alike s (nonce 0) parts hpending scram

theorem onEvents_alike (nonce : Nat → Nat → Text) (evs : List ReaderEvent)
    (h : Agree e e') : Alike (onEvents s nonce evs e) (onEvents s nonce evs e') := by
  induction evs generalizing nonce e e' with
  | nil => exact ⟨h, rfl⟩
  | cons ev evs ih =>
    have hev := onEvent_alike s (nonce 0) ev h
    simp only [onEvents, hev.engine.closed, hev.engine.awaitingTls]
    split_ifs
    · exact hev
    · exact hev.chain (ih (fun i => nonce (i + 1)) hev.engine)

theorem feed_alike (nonce : Nat → Nat → Text) (chunk : Bytes) (h : Agree e e') :
    Alike (feed s nonce chunk e) (feed s nonce chunk e') := by
  obtain ⟨scram, hscram⟩ := h
  simp only [feed]
  split_ifs
  · exact ⟨.intro scram hscram, rfl⟩
  · exact ⟨.intro scram hscram, rfl⟩
  · exact onEvents_alike s nonce _
      (.intro (e := { e with reader := (e.reader.feed chunk).1 }) scram hscram)

def AlikeAnswers (o o' : Option (Engine × List ManageSieveAction)) : Prop :=
  o = none ∧ o' = none ∨ ∃ r r', o = some r ∧ o' = some r' ∧ Alike r r'

theorem AlikeAnswers.of_alike {r r' : Engine × List ManageSieveAction} (h : Alike r r') :
    AlikeAnswers (some r) (some r') := .inr ⟨r, r', rfl, rfl, h⟩

theorem Alike.freed (h : e.pending = none) (scram : Option ScramExchange)
    (acts : List ManageSieveAction) : Alike (e, acts) ({ e with scram := scram }, acts) :=
  .unread (readsScram_of_none h) scram acts

theorem step_alike (i : Input) (h : Agree e e') :
    AlikeAnswers (step s i e) (step s i e') := by
  obtain ⟨c, nonce⟩ := i
  cases c with
  | feed chunk => exact .of_alike (feed_alike s nonce chunk h)
  | greeting =>
    obtain ⟨scram, hscram⟩ := h
    exact .of_alike ⟨.intro scram hscram, rfl⟩
  | tlsUpgraded =>
    obtain ⟨scram, hscram⟩ := h
    exact .of_alike (.freed (e := (tlsUpgraded s e).1) rfl scram _)
  | authResult ok =>
    obtain ⟨scram, hscram⟩ := h
    have hgiven : Alike (authGiven ok e) (authGiven ok { e with scram := scram }) := by
      unfold authGiven
      split_ifs
      · exact .freed (e := { e with pending := none, authed := true }) rfl scram _
      · exact .freed (e := { e with pending := none }) rfl scram _
    simp only [step, authResult]
    split
    · exact .of_alike (resumed_alike s _ hgiven)
    · exact .of_alike (resumed_alike s _ hgiven)
    · exact .inl ⟨rfl, rfl⟩
  | opResult result =>
    obtain ⟨scram, hscram⟩ := h
    have hgiven := Alike.freed (e := { e with pending := none }) rfl scram [.reply (opText result)]
    simp only [step, opResult]
    split
    · exact .of_alike (resumed_alike s _ hgiven)
    · exact .of_alike (resumed_alike s _ hgiven)
    · exact .of_alike (resumed_alike s _ hgiven)
    · exact .inl ⟨rfl, rfl⟩
  | listResult scripts =>
    obtain ⟨scram, hscram⟩ := h
    have hgiven : Alike (listGiven scripts e) (listGiven scripts { e with scram := scram }) :=
      .freed (e := { e with pending := none }) rfl scram _
    simp only [step, listResult]
    split
    · exact .of_alike (resumed_alike s _ hgiven)
    · exact .inl ⟨rfl, rfl⟩
  | getResult content =>
    obtain ⟨scram, hscram⟩ := h
    have hgiven : Alike (getGiven content e) (getGiven content { e with scram := scram }) :=
      .freed (e := { e with pending := none }) rfl scram _
    simp only [step, getResult]
    split
    · exact .of_alike (resumed_alike s _ hgiven)
    · exact .inl ⟨rfl, rfl⟩
  | scramKeysResult keys =>
    obtain ⟨scram, hscram⟩ := h
    simp only [step, scramKeysResult]
    split
    · rename_i hpending
      have hread : scram = e.scram := hscram (by simp [readsScram, hpending])
      rw [hread]
      exact .of_alike (.refl _)
    · exact .inl ⟨rfl, rfl⟩

theorem run_alike (is : List Input) (h : Agree e e') :
    (run s e' is).map Prod.snd = (run s e is).map Prod.snd := by
  induction is generalizing e e' with
  | nil => rfl
  | cons i is ih =>
    simp only [run]
    obtain ⟨hnone, hnone'⟩ | ⟨r, r', hsome, hsome', hr⟩ := step_alike s i h
    · rw [hnone, hnone']
    · have hrest := ih hr.engine
      rw [hsome, hsome']
      simp only [hr.actions]
      cases hrun : run s r.1 is with
      | none =>
        rw [hrun] at hrest
        rw [Option.map_eq_none_iff.mp hrest]
      | some p =>
        rw [hrun] at hrest
        obtain ⟨p', hp', hacts⟩ := Option.map_eq_some_iff.mp hrest
        rw [hp', Option.map_some, Option.map_some, Option.map_some, Option.map_some, hacts]

def Call.isTlsUpgraded : Call → Bool
  | .tlsUpgraded => true
  | _ => false

def reachesStartTls (pre : List Input) : Bool :=
  pre.all (fun i => !i.call.isTlsUpgraded) &&
    decide ((run s (newEngine s s.options.secure) pre).map (fun r => r.1.awaitingTls) = some true)

def afterTls (pre post : List Input) : Option (List (List ManageSieveAction)) :=
  (run s (newEngine s s.options.secure) pre).bind fun r =>
    (run s (tlsUpgraded s r.1).1 post).map fun p => (tlsUpgraded s r.1).2 :: p.2

theorem tlsUpgraded_agree (h : Plain e) (htls : e.awaitingTls = true) :
    Agree (newEngine s true) (tlsUpgraded s e).1 := by
  have hnew : (tlsUpgraded s e).1 = { newEngine s true with scram := e.scram } := by
    simp only [tlsUpgraded, newEngine, (h htls).1]
  rw [hnew]
  refine .intro e.scram fun hreads => ?_
  cases hreads

theorem afterTls_eq {pre : List Input} (h : reachesStartTls s pre = true) (post : List Input) :
    afterTls s pre post =
      (run s (newEngine s true) post).map fun p =>
        (tlsUpgraded s (newEngine s true)).2 :: p.2 := by
  simp only [reachesStartTls, Bool.and_eq_true, List.all_eq_true, decide_eq_true_eq,
    Option.map_eq_some_iff, Prod.exists, Bool.not_eq_true'] at h
  obtain ⟨-, e, acts, hrun, htls⟩ := h
  have hplain : Plain e := run_plain s (plain_of_open rfl) hrun
  have hsame := run_alike s post (tlsUpgraded_agree s hplain htls)
  have hgreet : (tlsUpgraded s e).2 = (tlsUpgraded s (newEngine s true)).2 := rfl
  simp only [afterTls, hrun, Option.bind_some, hgreet]
  have hcons := congrArg
    (Option.map fun acts => (tlsUpgraded s (newEngine s true)).2 :: acts) hsame
  simpa only [Option.map_map, Function.comp_def] using hcons

end

/-- What the handshake answers and everything after it is the same for any two plaintext
runs that end with an accepted STARTTLS, and what a new engine does on a TLS line; and the
plaintext that still arrives before the handshake does nothing. -/
theorem handshake_noninterference (s : Setup) (pre₁ pre₂ post : List Input)
    (h₁ : reachesStartTls s pre₁ = true) (h₂ : reachesStartTls s pre₂ = true) :
    afterTls s pre₁ post = afterTls s pre₂ post ∧
      afterTls s pre₁ post =
        (run s (newEngine s true) post).map (fun p =>
          (tlsUpgraded s (newEngine s true)).2 :: p.2) ∧
      ∀ (e : Engine) (acts : List (List ManageSieveAction)) (nonce : Nat → Nat → Text)
        (chunk : Bytes), run s (newEngine s s.options.secure) pre₁ = some (e, acts) →
          feed s nonce chunk e = (e, []) := by
  have hafter₁ := afterTls_eq s h₁ post
  have hafter₂ := afterTls_eq s h₂ post
  refine ⟨hafter₁.trans hafter₂.symm, hafter₁, fun e acts nonce chunk hrun => ?_⟩
  have htls : e.awaitingTls = true := by
    simp only [reachesStartTls, Bool.and_eq_true, decide_eq_true_eq, hrun, Option.map_some,
      Option.some.injEq] at h₁
    exact h₁.2
  unfold feed
  simp only [htls, if_true, ite_self]

/-- A host for text in ASCII and a server with a certificate, which lets clients authenticate
in plaintext. -/
def bareSetup : Setup :=
  { host := { cases := ⟨id, id⟩, sha256 := id, hmac := fun _ b => b, serverNonce := fun _ => [] }
    options := { hostname := "mx".toList, tlsAvailable := true, allowInsecureAuth := true } }

def feeds (wire : String) : Input := ⟨.feed (utf8Encode wire.toList), fun _ _ => []⟩

/-- STARTTLS taken from the queue with a command behind it, and STARTTLS as it came with the
beginning of one. -/
theorem handshake_noninterference_queued :
    afterTls bareSetup
        [feeds "AUTHENTICATE PLAIN AHUAcA==\r\nSTARTTLS\r\nNOOP\r\n", ⟨.authResult false, fun _ _ => []⟩]
        [feeds "NOOP\r\n"] =
      afterTls bareSetup [feeds "STARTTLS\r\nNO"] [feeds "NOOP\r\n"] :=
  (handshake_noninterference bareSetup _ _ _ (by decide +kernel) (by decide +kernel)).1

end Ionosphere.ManageSieve
