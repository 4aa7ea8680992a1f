import Ionosphere.Imap.Session

/-! What the handlers of the IMAP engine leave alone. `Frame` is about the line and
the login, `Silent` about the selected view: outside the continuations of SELECT,
APPEND, REPLACE, EXPUNGE, MOVE and the refresh nothing renumbers messages and
nothing announces that it did. -/
namespace Ionosphere.Imap

open Ionosphere.Js Ionosphere.Core

variable {r : Engine × List ImapAction} {a : ImapAction} {acts : List ImapAction}

variable {e : Engine}

theorem enableCondstore_false (e : Engine) : enableCondstore false e = e := by
  simp [enableCondstore]

@[simp] theorem lines_apply (texts : List Text) (e : Engine) :
    (lines texts).apply e = (e, texts.map say) := by
  have hmap : e.selected.map (announce none) = e.selected := by
    cases e.selected <;> rfl
  have hsession : (lines texts).session e = e := by
    simp [Answer.session, lines, enableCondstore_false, hmap]
  simp only [Answer.apply, hsession]
  simp only [lines, List.map_map]
  rfl

/-- The reader and the line's security stay, and nobody is logged out. -/
structure Frame (e e' : Engine) : Prop where
  reader : e'.reader = e.reader
  secure : e'.secure = e.secure
  awaitingTls : e'.awaitingTls = e.awaitingTls
  authed : e.state ≠ .notAuthenticated → e'.state ≠ .notAuthenticated

theorem Frame.refl (e : Engine) : Frame e e := ⟨rfl, rfl, rfl, id⟩

theorem Frame.trans {a b c : Engine} (hab : Frame a b) (hbc : Frame b c) : Frame a c :=
  ⟨hbc.reader.trans hab.reader, hbc.secure.trans hab.secure,
    hbc.awaitingTls.trans hab.awaitingTls, fun h => hbc.authed (hab.authed h)⟩

theorem session_frame (a : Answer) (e : Engine) : Frame e (a.session e) := by
  cases hleave : a.leave
  · exact ⟨by simp [Answer.session, hleave, enableCondstore],
      by simp [Answer.session, hleave, enableCondstore],
      by simp [Answer.session, hleave, enableCondstore],
      fun h => by simpa [Answer.session, hleave, enableCondstore] using h⟩
  · exact ⟨by simp [Answer.session, hleave, enableCondstore, leaveSelected],
      by simp [Answer.session, hleave, enableCondstore, leaveSelected],
      by simp [Answer.session, hleave, enableCondstore, leaveSelected],
      fun _ => by simp [Answer.session, hleave, enableCondstore, leaveSelected]⟩

theorem apply_frame (a : Answer) (e : Engine) : Frame e (a.apply e).1 := by
  have hs := session_frame a e
  unfold Answer.apply
  cases a.request with
  | none => exact hs
  | some p => exact ⟨hs.reader, hs.secure, hs.awaitingTls, hs.authed⟩

theorem removalActions_frame (removed : List Nat) (e : Engine) :
    Frame e (removalActions removed e).1 := by
  unfold removalActions
  split
  · exact .refl e
  · exact ⟨rfl, rfl, rfl, id⟩

theorem setView_frame (v : Option SelectedView) (e : Engine) :
    Frame e { e with selected := v } := ⟨rfl, rfl, rfl, id⟩

theorem resumeSelect_frame (tag : Text) (readWrite : Bool) (q : Option Qresync)
    (res : ImapBackendResponse) (e : Engine) : Frame e (resumeSelect tag readWrite q res e).1 := by
  unfold resumeSelect
  split
  · simp only
    split <;> exact ⟨rfl, rfl, rfl, fun _ => by simp [callBackend]⟩
  · exact .refl e

theorem resumeAppend_frame (tag name : Text) (res : ImapBackendResponse) (e : Engine) :
    Frame e (resumeAppend tag name res e).1 := by
  unfold resumeAppend
  split
  · simp only
    split
    · exact .refl e
    · split
      · exact setView_frame _ e
      · exact .refl e
  · exact .refl e

theorem resumeReplace_frame (tag verb dest : Text) (res : ImapBackendResponse) (e : Engine) :
    Frame e (resumeReplace tag verb dest res e).1 := by
  unfold resumeReplace
  split
  · simp only
    split
    · exact .refl e
    · exact (setView_frame _ e).trans (removalActions_frame _ _)
  · exact .refl e

theorem resumeCopyMove_frame (tag verb : Text) (op : CopyOp) (res : ImapBackendResponse)
    (e : Engine) : Frame e (resumeCopyMove tag verb op res e).1 := by
  unfold resumeCopyMove
  split
  · cases op
    · exact .refl e
    · exact removalActions_frame _ e
  · exact .refl e

theorem resumeExpunge_frame (tag verb : Text) (res : ImapBackendResponse) (e : Engine) :
    Frame e (resumeExpunge tag verb res e).1 := by
  unfold resumeExpunge
  split
  · exact removalActions_frame _ e
  · exact .refl e

theorem resumeRefresh_frame (taggedOk : Option Text) (res : ImapBackendResponse) (e : Engine) :
    Frame e (resumeRefresh taggedOk res e).1 := by
  unfold resumeRefresh
  split
  · simp only
    split
    · exact setView_frame _ e
    · exact ⟨rfl, rfl, rfl, id⟩
  · exact .refl e
section

variable (s : Setup)

theorem resumeRefreshSync_frame (taggedOk : Option Text) (n : Nat) (dbKeywords : List Text)
    (res : ImapBackendResponse) (e : Engine) :
    Frame e (resumeRefreshSync s taggedOk n dbKeywords res e).1 := by
  unfold resumeRefreshSync
  simp only
  split
  · exact .refl e
  · split <;> exact setView_frame _ e

theorem resume_frame (k : Resume) (res : ImapBackendResponse) (e : Engine) :
    Frame e (resume s k res e).1 := by
  cases k with
  | select tag readWrite q => exact resumeSelect_frame tag readWrite q res e
  | append tag name => exact resumeAppend_frame tag name res e
  | replace tag verb dest => exact resumeReplace_frame tag verb dest res e
  | copyMove tag verb op => exact resumeCopyMove_frame tag verb op res e
  | expunge tag verb => exact resumeExpunge_frame tag verb res e
  | refresh taggedOk => exact resumeRefresh_frame taggedOk res e
  | refreshSync taggedOk n kws => exact resumeRefreshSync_frame s taggedOk n kws res e
  | _ => exact apply_frame _ e

def Reply.announces : Reply → Bool
  | .line _ => false
  | _ => true

def ImapAction.announces : ImapAction → Bool
  | .reply r => r.announces
  | _ => false

def Hushed (acts : List ImapAction) : Prop := ∀ a ∈ acts, a.announces = false

theorem Hushed.nil : Hushed [] := by simp [Hushed]

theorem Hushed.cons (ha : a.announces = false)
    (h : Hushed acts) : Hushed (a :: acts) := by
  intro b hb
  rcases List.mem_cons.mp hb with rfl | hb
  · exact ha
  · exact h b hb

theorem Hushed.one (ha : a.announces = false) : Hushed [a] := .cons ha .nil

theorem hushed_append (as bs : List ImapAction) :
    Hushed (as ++ bs) ↔ Hushed as ∧ Hushed bs := by
  simp only [Hushed, List.mem_append]
  exact ⟨fun h => ⟨fun a ha => h a (.inl ha), fun a ha => h a (.inr ha)⟩,
    fun h a ha => ha.elim (h.1 a) (h.2 a)⟩

theorem hushed_map_say (texts : List Text) : Hushed (texts.map say) := by
  intro a ha
  obtain ⟨text, -, rfl⟩ := List.mem_map.mp ha
  rfl

/-- What an action asks the adapter for; its answer comes back through a method of the
same name. A verified SCRAM exchange is answered as a login is. -/
inductive Ask where
  | auth
  | scramKeys
  | backend
  deriving DecidableEq

def ImapAction.asks : ImapAction → Option Ask
  | .auth _ _ => some .auth
  | .authVerified _ _ => some .auth
  | .scramKeys _ => some .scramKeys
  | .backend _ => some .backend
  | _ => none

def RepliesOnly (acts : List ImapAction) : Prop := ∀ a ∈ acts, a.announces = false ∧ a.asks = none

theorem RepliesOnly.one (ha : a.announces = false) (hask : a.asks = none) :
    RepliesOnly [a] := by
  simp [RepliesOnly, ha, hask]

theorem RepliesOnly.hushed (h : RepliesOnly acts) : Hushed acts := fun a ha => (h a ha).1

/-- What a line of an authentication does: nothing, or it begins to wait for the client,
for SCRAM keys or for a verdict. The flag says that it begins to wait. -/
inductive Exchanged (e : Engine) : Bool → Engine × List ImapAction → Prop
  | same (acts : List ImapAction) (hacts : RepliesOnly acts) : Exchanged e false (e, acts)
  | client (sasl : SaslPending) (acts : List ImapAction) (hacts : RepliesOnly acts) :
      Exchanged e true ({ e with pending := some (.saslLine sasl) }, acts)
  | lookup (tag user : Text) (session : ScramServerSession) (stage : ScramStage)
      (username : Option Text) :
      Exchanged e true
        ({ e with pending := some (.scramKeys ⟨tag, .scram session stage username⟩) },
          [.scramKeys user])
  | verdict (tag : Text) (a : ImapAction) (ha : a.announces = false) (hask : a.asks = some .auth) :
      Exchanged e true ({ e with pending := some (.auth tag) }, [a])

theorem scramRejected_repliesOnly (tag : Text) (step : ScramStep) :
    RepliesOnly (scramRejected tag step) := by
  cases step <;> simp [RepliesOnly, scramRejected, scramFailedAction, say, ImapAction.announces,
    ImapAction.asks, Reply.announces]

def scramAccepts (nonce : Text) (session : ScramServerSession) (stage : ScramStage)
    (text : Text) : Bool :=
  match stage with
  | .serverFinal => true
  | .clientFirst =>
    match session.start nonce text with
    | (_, .lookup _) => true
    | _ => false
  | .clientFinal =>
    match session.final s.host text with
    | (_, .done _ _) => true
    | _ => false

def saslAccepts (nonce : Text) (mechanism : SaslMechanism) (data : Text) : Bool :=
  data ≠ ['*'] &&
    match decodeSaslBase64 (if data = ['='] then [] else data) with
    | none => false
    | some bytes =>
      match mechanism with
      | .plain => (parseSaslPlain bytes).isSome
      | .oauth mechanism => (parseSaslOAuth mechanism (utf8Decode bytes)).isSome
      | .scram session stage _ => scramAccepts s nonce session stage (utf8Decode bytes)

theorem handleScram_exchanged (nonce tag : Text) (session : ScramServerSession)
    (stage : ScramStage) (username : Option Text) (text : Text) (e : Engine) :
    Exchanged e (scramAccepts s nonce session stage text)
      (handleScram s nonce tag session stage username text e) := by
  unfold handleScram scramAccepts
  cases stage with
  | serverFinal => exact .verdict _ _ rfl rfl
  | clientFirst =>
    dsimp only
    cases session.start nonce text with
    | mk session step =>
      cases step with
      | lookup user => exact .lookup ..
      | _ => exact .same _ (scramRejected_repliesOnly _ _)
  | clientFinal =>
    dsimp only
    cases session.final s.host text with
    | mk session step =>
      cases step with
      | done user message => exact .client _ _ (.one rfl rfl)
      | _ => exact .same _ (scramRejected_repliesOnly _ _)

theorem handleSaslData_exchanged (nonce : Text) (sasl : SaslPending) (data : Option Text)
    (e : Engine) :
    Exchanged e (isScramAck sasl data || data.any (saslAccepts s nonce sasl.mechanism))
      (handleSaslData s nonce sasl data e) := by
  unfold handleSaslData
  cases hack : isScramAck sasl data with
  | true => exact .verdict _ _ rfl rfl
  | false =>
    cases data with
    | none => exact .same _ (.one rfl rfl)
    | some data =>
      unfold saslAccepts
      by_cases hstar : data = ['*']
      · simp only [hstar, Option.any_some]
        exact .same _ (.one rfl rfl)
      · simp only [hstar, Option.any_some, Bool.false_or, Bool.false_eq_true, if_false, ne_eq,
          not_false_eq_true, decide_true, Bool.true_and]
        cases decodeSaslBase64 (if data = ['='] then [] else data) with
        | none => exact .same _ (.one rfl rfl)
        | some bytes =>
          cases sasl.mechanism with
          | plain =>
            dsimp only
            cases parseSaslPlain bytes with
            | none => exact .same _ (.one rfl rfl)
            | some creds => exact .verdict _ _ rfl rfl
          | oauth mechanism =>
            dsimp only
            cases parseSaslOAuth mechanism (utf8Decode bytes) with
            | none => exact .same _ (.one rfl rfl)
            | some creds => exact .verdict _ _ rfl rfl
          | scram session stage username =>
            exact handleScram_exchanged s nonce sasl.tag session stage username _ e

def loginGiven (cmd : ParsedCommand) : Bool :=
  (textArg cmd 0).isSome && (textArg cmd 1).isSome && cmd.args.length = 2

theorem cmdLogin_exchanged (cmd : ParsedCommand) (e : Engine) :
    Exchanged e (e.state = .notAuthenticated && authAllowed s e && loginGiven cmd)
      (cmdLogin s cmd e) := by
  unfold cmdLogin
  by_cases hstate : e.state = .notAuthenticated
  · simp only [hstate, decide_true, Bool.true_and, ne_eq, not_true_eq_false, if_false]
    cases authAllowed s e with
    | false => exact .same _ (.one rfl rfl)
    | true =>
      simp only [Bool.not_true, Bool.false_eq_true, if_false, Bool.true_and]
      split
      · rename_i user pass a b huser hpass hargs
        have hgiven : loginGiven cmd = true := by simp [loginGiven, huser, hpass, hargs]
        rw [hgiven]
        exact .verdict _ _ rfl rfl
      · rename_i hnot
        have hgiven : loginGiven cmd = false := by
          cases huser : textArg cmd 0 with
          | none => simp [loginGiven, huser]
          | some user =>
            cases hpass : textArg cmd 1 with
            | none => simp [loginGiven, hpass]
            | some pass =>
              have hlen : cmd.args.length ≠ 2 := by
                intro hlen
                obtain ⟨a, b, hargs⟩ := List.length_eq_two.mp hlen
                exact hnot user pass a b huser hpass hargs
              simp [loginGiven, hlen]
        rw [hgiven]
        exact .same _ (.one rfl rfl)
  · simp only [hstate, decide_false, Bool.false_and, ne_eq, not_false_eq_true, if_true]
    exact .same _ (.one rfl rfl)

/-- An AUTHENTICATE that waits for the client, or whose first response is accepted. -/
def authenticateGiven (nonce : Text) (cmd : ParsedCommand) : Bool :=
  match saslMechanism s (upperText s.host.cases cmd.args[0]?) with
  | none => false
  | some mechanism =>
    cmd.args.length ≤ 2 && (textArg cmd 1).all (saslAccepts s nonce mechanism)

theorem isScramAck_fresh {name : Option Text} {mechanism : SaslMechanism}
    (h : saslMechanism s name = some mechanism) (tag : Text) (data : Option Text) :
    isScramAck ⟨tag, mechanism⟩ data = false := by
  unfold saslMechanism at h
  split_ifs at h <;> cases h <;> rfl

theorem cmdAuthenticate_exchanged (nonce : Text) (cmd : ParsedCommand) (e : Engine) :
    Exchanged e (e.state = .notAuthenticated && authAllowed s e && authenticateGiven s nonce cmd)
      (cmdAuthenticate s nonce cmd e) := by
  unfold cmdAuthenticate authenticateGiven
  by_cases hstate : e.state = .notAuthenticated
  · rw [if_neg (not_not_intro hstate), decide_eq_true hstate, Bool.true_and]
    cases authAllowed s e with
    | false => exact .same _ (.one rfl rfl)
    | true =>
      simp only [Bool.not_true, Bool.false_eq_true, if_false, Bool.true_and]
      cases hmech : saslMechanism s (upperText s.host.cases cmd.args[0]?) with
      | none => exact .same _ (.one rfl rfl)
      | some mechanism =>
        dsimp only
        by_cases hlen : 2 < cmd.args.length
        · rw [if_pos hlen, decide_eq_false (Nat.not_le_of_lt hlen)]
          exact .same _ (.one rfl rfl)
        · rw [if_neg hlen, decide_eq_true (Nat.le_of_not_lt hlen), Bool.true_and]
          cases textArg cmd 1 with
          | none =>
            exact .client ⟨cmd.tag, mechanism⟩ [say "+ "] (.one rfl rfl)
          | some initial =>
            have hdata := handleSaslData_exchanged s nonce ⟨cmd.tag, mechanism⟩ (some initial) e
            rw [isScramAck_fresh s hmech, Bool.false_or] at hdata
            exact hdata
  · simp only [hstate, decide_false, Bool.false_and, ne_eq, not_false_eq_true, if_true]
    exact .same _ (.one rfl rfl)

/-- Nothing happened, or an exchange other than a backend request is pending now. -/
inductive ExchangeOnly (e : Engine) : Engine × List ImapAction → Prop
  | same (acts : List ImapAction) (hacts : Hushed acts) : ExchangeOnly e (e, acts)
  | pending (p : Pending) (hp : ∀ k, p ≠ .backend k) (acts : List ImapAction)
      (hacts : Hushed acts) : ExchangeOnly e ({ e with pending := some p }, acts)

theorem Exchanged.only {began : Bool}
    (h : Exchanged e began r) : ExchangeOnly e r := by
  cases h with
  | same acts hacts => exact .same _ hacts.hushed
  | client sasl acts hacts => exact .pending _ (by simp) _ hacts.hushed
  | lookup => exact .pending _ (by simp) _ (.one rfl)
  | verdict tag a ha => exact .pending _ (by simp) _ (.one ha)

theorem handleSaslData_exchange (nonce : Text) (sasl : SaslPending) (data : Option Text)
    (e : Engine) : ExchangeOnly e (handleSaslData s nonce sasl data e) :=
  (handleSaslData_exchanged s nonce sasl data e).only

theorem cmdLogin_exchange (cmd : ParsedCommand) (e : Engine) :
    ExchangeOnly e (cmdLogin s cmd e) := (cmdLogin_exchanged s cmd e).only

theorem cmdAuthenticate_exchange (nonce : Text) (cmd : ParsedCommand) (e : Engine) :
    ExchangeOnly e (cmdAuthenticate s nonce cmd e) := (cmdAuthenticate_exchanged s nonce cmd e).only

theorem ExchangeOnly.frame (h : ExchangeOnly e r) :
    Frame e r.1 := by
  cases h with
  | same => exact .refl e
  | pending p hp => exact ⟨rfl, rfl, rfl, id⟩

section

variable (h : e.state = .notAuthenticated)

include h

theorem requireAuth_unauth (cmd : ParsedCommand) (fn : Answer) :
    requireAuth cmd e fn = lines [bad cmd.tag "command not allowed before authentication"] :=
  if_pos h

theorem requireSelected_unauth (cmd : ParsedCommand)
    (fn : SelectedView → Answer) :
    requireSelected cmd e fn = lines [bad cmd.tag "command requires a selected mailbox"] := by
  simp only [requireSelected, h, refuse]

theorem cmdUid_unauth (cmd : ParsedCommand) :
    ∃ texts, cmdUid s cmd e = lines texts := by
  unfold cmdUid
  simp only [requireSelected_unauth h]
  split <;> try exact ⟨_, rfl⟩
  split <;> exact ⟨_, rfl⟩

theorem ordinary_unauth (verb : AnswerVerb) (cmd : ParsedCommand) :
    ∃ texts, ordinary s verb cmd e = lines texts := by
  cases verb with
  | uid => exact cmdUid_unauth s h cmd
  | noop =>
    refine ⟨[noopText cmd], if_neg ?_⟩
    simp [h]
  | check =>
    refine ⟨[noopText cmd], if_neg ?_⟩
    simp [h]
  | _ =>
    simp only [ordinary, requireAuth_unauth h, requireSelected_unauth h]
    exact ⟨_, rfl⟩

theorem ordinary_apply_unauth (verb : AnswerVerb)
    (cmd : ParsedCommand) :
    ((ordinary s verb cmd e).apply e).1 = e := by
  obtain ⟨texts, htexts⟩ := ordinary_unauth s h verb cmd
  rw [htexts, lines_apply]

end

def acceptsStartTls (parts : List LinePart) (e : Engine) : Bool :=
  e.idleTag.isNone && e.pending.isNone && !e.secure && s.options.tlsAvailable &&
    match parseCommand s.host.cases parts with
    | .ok cmd => verbOf cmd.name = some (.session .starttls)
    | .error _ => false

/-- STARTTLS taken: the queue is dropped, the handshake awaited. -/
def upgrading (e : Engine) : Engine := { e with awaitingTls := true, queued := [], queuedBytes := 0 }

theorem cmdStartTls_cases (cmd : ParsedCommand) (e : Engine) :
    (cmdStartTls s cmd e).1 = e ∨
      (cmdStartTls s cmd e).1 = upgrading e ∧
        (e.idleTag.isNone && e.pending.isNone && !e.secure && s.options.tlsAvailable) = true := by
  unfold cmdStartTls
  split
  · exact .inl rfl
  · rename_i hsecure
    split
    · exact .inl rfl
    · rename_i htls
      split
      · exact .inl rfl
      · rename_i hbusy
        refine .inr ⟨rfl, ?_⟩
        cases hp : e.pending <;> cases hi : e.idleTag <;> simp_all

theorem sessionCommand_frame (nonce : Text) (verb : SessionVerb) (cmd : ParsedCommand)
    (e : Engine) :
    Frame e (sessionCommand s nonce cmd verb e).1 ∨
      verb = .starttls ∧ (sessionCommand s nonce cmd verb e).1 = upgrading e ∧
        (e.idleTag.isNone && e.pending.isNone && !e.secure && s.options.tlsAvailable) = true := by
  cases verb with
  | starttls =>
    rcases cmdStartTls_cases s cmd e with h | h
    · left
      rw [sessionCommand, h]
      exact .refl e
    · exact .inr ⟨rfl, h⟩
  | logout => exact .inl ⟨rfl, rfl, rfl, id⟩
  | login => exact .inl (cmdLogin_exchange s cmd e).frame
  | authenticate => exact .inl (cmdAuthenticate_exchange s nonce cmd e).frame
  | enable =>
    left
    simp only [sessionCommand, cmdEnable]
    split <;> exact ⟨rfl, rfl, rfl, id⟩
  | compress =>
    left
    simp only [sessionCommand, cmdCompress]
    split
    · exact .refl e
    · split
      · exact .refl e
      · split <;> exact ⟨rfl, rfl, rfl, id⟩
  | idle =>
    left
    simp only [sessionCommand, cmdIdle]
    split <;> exact ⟨rfl, rfl, rfl, id⟩

theorem handleLine_frame (nonce : Text) (parts : List LinePart) (e : Engine) :
    Frame e (handleLine s nonce parts e).1 ∨
      acceptsStartTls s parts e = true ∧ (handleLine s nonce parts e).1 = upgrading e := by
  unfold handleLine
  split
  · exact .inl ⟨rfl, rfl, rfl, id⟩
  · rename_i hidle
    split
    · rename_i sasl hsasl
      left
      have h := (handleSaslData_exchange s nonce sasl (soleText parts)
        { e with pending := none }).frame
      exact ⟨h.reader, h.secure, h.awaitingTls, h.authed⟩
    · unfold handleCommand
      cases hcmd : parseCommand s.host.cases parts with
      | error msg => exact .inl (.refl e)
      | ok cmd =>
        simp only
        cases hverb : verbOf cmd.name with
        | none => exact .inl (.refl e)
        | some verb =>
          cases verb with
          | answer v => exact .inl (apply_frame _ e)
          | session v =>
            rcases sessionCommand_frame s nonce v cmd e with h | ⟨rfl, hup, hacc⟩
            · exact .inl h
            · refine .inr ⟨?_, hup⟩
              rw [acceptsStartTls, hacc, hcmd]
              simp [hverb]

end

/-- The view keeps its uids or is given up, and nothing is announced. -/
structure Silent (e : Engine) (r : Engine × List ImapAction) : Prop where
  view : r.1.selected = none ∨ r.1.selected.map (·.uids) = e.selected.map (·.uids)
  hushed : Hushed r.2

theorem Silent.same {e e' : Engine} (hsel : e'.selected = e.selected)
    (hacts : Hushed acts) : Silent e (e', acts) :=
  ⟨.inr (congrArg (Option.map (·.uids)) hsel), hacts⟩

theorem Silent.append {r q : Engine × List ImapAction} (hr : Silent e r)
    (hq : Silent r.1 q) : Silent e (q.1, r.2 ++ q.2) := by
  refine ⟨?_, (hushed_append _ _).mpr ⟨hr.hushed, hq.hushed⟩⟩
  rcases hq.view with hnone | hkept
  · exact .inl hnone
  · rcases hr.view with hgone | hsame
    · rw [hgone, Option.map_none, Option.map_eq_none_iff] at hkept
      exact .inl hkept
    · exact .inr (hkept.trans hsame)

theorem apply_silent (a : Answer) (e : Engine) : Silent e (a.apply e) := by
  have houts : Hushed (a.outs.map Out.action) := by
    intro x hx
    obtain ⟨out, -, rfl⟩ := List.mem_map.mp hx
    cases out <;> rfl
  have hview : (a.session e).selected = none ∨
      (a.session e).selected.map (·.uids) = e.selected.map (·.uids) := by
    cases hleave : a.leave
    · right
      simp only [Answer.session, hleave, enableCondstore, Option.map_map]
      rfl
    · left
      simp [Answer.session, hleave, leaveSelected]
  unfold Answer.apply
  cases a.request with
  | none => exact ⟨hview, houts⟩
  | some p => exact ⟨hview, (hushed_append _ _).mpr ⟨houts, .one rfl⟩⟩

theorem ExchangeOnly.silent (h : ExchangeOnly e r) :
    Silent e r := by
  cases h with
  | same acts hacts => exact .same rfl hacts
  | pending p hp acts hacts => exact .same rfl hacts

section

variable (s : Setup)

theorem sessionCommand_silent (nonce : Text) (verb : SessionVerb) (cmd : ParsedCommand)
    (e : Engine) : Silent e (sessionCommand s nonce cmd verb e) := by
  cases verb with
  | logout => exact .same rfl (.cons rfl (.cons rfl (.one rfl)))
  | starttls =>
    simp only [sessionCommand, cmdStartTls]
    split
    · exact .same rfl (.one rfl)
    · split
      · exact .same rfl (.one rfl)
      · split
        · exact .same rfl (.one rfl)
        · exact .same rfl (.cons rfl (.one rfl))
  | login => exact (cmdLogin_exchange s cmd e).silent
  | authenticate => exact (cmdAuthenticate_exchange s nonce cmd e).silent
  | enable =>
    simp only [sessionCommand, cmdEnable]
    split
    · exact .same rfl (.one rfl)
    · exact .same rfl (.one rfl)
    · exact .same rfl (.cons rfl (.one rfl))
  | compress =>
    simp only [sessionCommand, cmdCompress]
    split
    · exact .same rfl (.one rfl)
    · split
      · exact .same rfl (.one rfl)
      · split
        · exact .same rfl (.one rfl)
        · exact .same rfl (.cons rfl (.one rfl))
  | idle =>
    simp only [sessionCommand, cmdIdle]
    split <;> exact .same rfl (.one rfl)

theorem dispatch_silent (nonce : Text) (verb : Verb) (cmd : ParsedCommand) (e : Engine) :
    Silent e (dispatch s nonce verb cmd e) := by
  cases verb with
  | session v => exact sessionCommand_silent s nonce v cmd e
  | answer v => exact apply_silent _ e

theorem endIdle_announces (tag : Text) (parts : List LinePart) :
    (endIdle s tag parts).announces = false := by
  unfold endIdle
  simp only
  split <;> rfl

theorem handleLine_silent (nonce : Text) (parts : List LinePart) (e : Engine) :
    Silent e (handleLine s nonce parts e) := by
  unfold handleLine
  split
  · exact .same rfl (.one (endIdle_announces s _ _))
  · split
    · rename_i sasl hsasl
      have h := (handleSaslData_exchange s nonce sasl (soleText parts) { e with pending := none }).silent
      exact ⟨h.view, h.hushed⟩
    · unfold handleCommand
      split
      · exact .same rfl (.one rfl)
      · split
        · exact .same rfl (.one rfl)
        · exact dispatch_silent s nonce _ _ e

theorem handleReaderEvent_silent (nonce : Text) (ev : ReaderEvent) (e : Engine) :
    Silent e (handleReaderEvent s nonce ev e) := by
  cases ev with
  | «continue» size => exact .same rfl (.one rfl)
  | error message => exact .same rfl (.one rfl)
  | line parts =>
    simp only [handleReaderEvent]
    split
    · unfold enqueue
      split
      · exact .same rfl (.cons rfl (.one rfl))
      · exact .same rfl .nil
    · exact handleLine_silent s nonce parts e

theorem handleEvents_silent (nonce : Nat → Text) (evs : List ReaderEvent) (e : Engine) :
    Silent e (handleEvents s nonce evs e) := by
  induction evs generalizing nonce e with
  | nil => exact .same rfl .nil
  | cons ev evs ih =>
    have hev := handleReaderEvent_silent s (nonce 0) ev e
    simp only [handleEvents]
    split
    · exact hev
    · exact hev.append (ih _ _)

theorem drainLoop_silent (fuel : Nat) (nonce : Nat → Text) (e : Engine) :
    Silent e (drainLoop s fuel nonce e) := by
  induction fuel generalizing nonce e with
  | zero => exact .same rfl .nil
  | succ fuel ih =>
    unfold drainLoop
    split
    · exact .same rfl .nil
    · rename_i parts queued hqueued
      split
      · exact .same rfl .nil
      · have hline := handleLine_silent s (nonce 0) parts
          { e with queued := queued, queuedBytes := e.queuedBytes - lineBytes parts }
        exact Silent.append ⟨hline.view, hline.hushed⟩ (ih _ _)

theorem drainQueued_silent (nonce : Nat → Text) (e : Engine) :
    Silent e (drainQueued s nonce e) := by
  have hloop := drainLoop_silent s e.queued.length nonce e
  unfold drainQueued settleQueue
  simp only
  split
  · exact ⟨hloop.view, hloop.hushed⟩
  · exact hloop

theorem backendResult_spec {nonce : Nat → Text} {res : ImapBackendResponse}
    (h : backendResult s nonce res e = some r) :
    ∃ k, e.pending = some (.backend k) ∧
      let r' := resume s k res { e with pending := none }
      r = ((drainQueued s nonce r'.1).1, r'.2 ++ (drainQueued s nonce r'.1).2) := by
  unfold backendResult at h
  split at h
  · rename_i k hk
    split_ifs at h
    exact ⟨k, hk, (Option.some.inj h).symm⟩
  · cases h

theorem authResult_spec {nonce : Nat → Text} {ok : Bool}
    (h : authResult s nonce ok e = some r) :
    ∃ tag, e.pending = some (.auth tag) ∧
      let r' := authAnswered s tag ok { e with pending := none }
      r = ((drainQueued s nonce r'.1).1, r'.2 ++ (drainQueued s nonce r'.1).2) := by
  unfold authResult at h
  split at h
  · rename_i tag htag
    dsimp only at h
    split_ifs at h
    exact ⟨tag, htag, (Option.some.inj h).symm⟩
  · cases h

end

end Ionosphere.Imap
