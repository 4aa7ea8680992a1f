import Ionosphere.Smtp.Engine

/-!
Runs of the engine. `Loop` is the loop of `pump` without its fuel, and every pump
is such a loop. A run is a sequence of calls the adapter makes, recorded as the
list of inputs and loop passes it causes; a call whose method throws is no step.
`CommandEffect` says once what a command line can do to the engine.
-/

namespace Ionosphere.Smtp

open Ionosphere.Js Ionosphere.Core Ionosphere.Lib

variable {e e' : Engine} {verb rest : Text}
  {u : CaseMap} {t : Turn} {r : Result} {acts : List SmtpAction}
  {err : ParamSyntaxError} {buf : Bytes}

section

variable (h : Host) (o : Options)

/-- Only the AUTH exchange moved. -/
structure AuthOnly (e e' : Engine) : Prop where
  same : e' = { e with
    awaiting := e'.awaiting, authContinuation := e'.authContinuation
    pendingAuthUser := e'.pendingAuthUser, nonces := e'.nonces }
  awaiting : e'.awaiting = e.awaiting ∨ e'.awaiting = some .auth ∨ e'.awaiting = some .scramKeys

/-- Actions that neither deliver nor accept anything on behalf of a transaction. -/
def SmtpAction.isAside : SmtpAction → Bool
  | .deliver _ => false
  | .rcpt _ => false
  | _ => true

/-- Requests the adapter answers by a call, STARTTLS apart. -/
def SmtpAction.asksBackend : SmtpAction → Bool
  | .rcpt _ => true
  | .auth _ _ => true
  | .scramKeys _ => true
  | .authVerified _ => true
  | .deliver _ => true
  | _ => false

def SmtpAction.asksFor : SmtpAction → Option Text
  | .auth user _ => some user
  | .authVerified user => some user
  | _ => none

def SmtpAction.isReport : SmtpAction → Bool
  | .reply _ => true
  | .authFailed _ _ => true
  | _ => false

def Quiet (acts : List SmtpAction) : Prop := ∀ a ∈ acts, a.isReport = true

/-- One step of an AUTH exchange: a challenge or a refusal, a question about a user,
or the lookup of a user's keys. -/
inductive Exchange (e : Engine) : Engine → List SmtpAction → Prop
  | talk (c : Option AuthContinuation) (acts : List SmtpAction) (hquiet : Quiet acts) :
      Exchange e { e with authContinuation := c } acts
  | ask (c : Option AuthContinuation) (user : Text) (a : SmtpAction)
      (ha : a.asksFor = some user) :
      Exchange e
        { e with authContinuation := c, pendingAuthUser := some user, awaiting := some .auth } [a]
  | lookup (session : ScramServerSession) (user : Text) :
      Exchange e
        { e with
          authContinuation := some (.scramKeys session)
          awaiting := some .scramKeys
          nonces := e.nonces + 1 } [.scramKeys user]

def Allowed (e : Engine) (r : Engine × List SmtpAction) : Prop :=
  Exchange e r.1 r.2 ∧ (authAllowed o e = true ∨ r.1 = e ∧ Quiet r.2)

/-- A single reply whose code starts with the digit `d`. -/
def repliesWith (d : Char) : List SmtpAction → Bool
  | [.reply (c :: _)] => c == d
  | _ => false

/-- The effects of the command `verb rest`. -/
inductive CommandEffect (verb rest : Text) (e : Engine) : Engine → List SmtpAction → Prop
  | greet (acts : List SmtpAction) (hv : verb = "EHLO".toList ∨ verb = "HELO".toList)
      (hacts : repliesWith '2' acts) :
      CommandEffect verb rest e { resetTransaction e with state := .greeted, heloName := rest } acts
  | mail (parsed : ParsedMailFrom) (hv : verb = "MAIL".toList) (hstate : e.state = .greeted)
      (hparse : parseMailFromArgs h.cases rest = .ok parsed)
      (hauth : o.profile = .submission → e.authenticatedAs ≠ none) :
      CommandEffect verb rest e
        { e with
          mailFrom := some parsed.address
          mailDsn := { ret := parsed.ret, envid := parsed.envid }
          rcptTo := []
          state := .mail } [reply 250 "2.1.0" "OK"]
  | rcpt (v : ParsedRcptTo) (hv : verb = "RCPT".toList) (hstate : e.state = .mail ∨ e.state = .rcpt)
      (hparse : parseRcptToArgs h.cases rest = .ok v) (hcount : e.rcptCount < maxRcptPerSession) :
      CommandEffect verb rest e
        { e with
          rcptCount := e.rcptCount + 1
          pendingRcptAddress := some v.address
          rcptDsn := recordDsn v e.rcptDsn
          awaiting := some .rcpt } [.rcpt v.address]
  | data (hv : verb = "DATA".toList) (hstate : e.state = .rcpt) :
      CommandEffect verb rest e { e with state := .data }
        [rawReply "354 Start mail input; end with <CRLF>.<CRLF>".toList]
  | bdat (digits : Text) (last : Bool) (n : Nat) (hv : verb = "BDAT".toList)
      (hstate : e.state = .rcpt ∨ e.state = .bdat)
      (hparse : parseBdatArgs h rest = some (digits, last))
      (hn : decimalNumber digits = some n) :
      CommandEffect verb rest e
        { e with
          dataOverflow := e.dataOverflow || decide (o.maxSizeBytes < roundInt (e.dataSize + n))
          bdatRemaining := n
          bdatLast := last
          state := .bdat } []
  | reset (hv : verb = "RSET".toList) :
      CommandEffect verb rest e (resetTransaction e) [reply 250 "2.1.5" "OK"]
  | quit :
      CommandEffect verb rest e { e with closed := true } [reply 221 "2.0.0" "Bye", .close]
  | startTls (htls : e.isTls = false) :
      CommandEffect verb rest e { e with buffer := [], awaiting := some .tls }
        [reply 220 "2.0.0" "Ready to start TLS", .startTls]
  | aside (e' : Engine) (acts : List SmtpAction) (hsame : AuthOnly e e')
      (haside : acts.all SmtpAction.isAside)
      (hacts : repliesWith '2' acts = true → verb ≠ "EHLO".toList ∧ verb ≠ "HELO".toList ∧
        verb ≠ "MAIL".toList ∧ verb ≠ "RSET".toList)
      (hdata : repliesWith '3' acts = true → verb ≠ "DATA".toList)
      (hallowed : Allowed o e (e', acts)) :
      CommandEffect verb rest e e' acts

variable {h o}

/-- A handler that moves only the AUTH exchange and pushes no transaction action. -/
def Aside (e : Engine) (r : Engine × List SmtpAction) : Prop :=
  AuthOnly e r.1 ∧ r.2.all SmtpAction.isAside

theorem quiet_reply (text : Text) : Quiet [.reply text] := by simp [Quiet, SmtpAction.isReport]

theorem clearAuth_authOnly (e : Engine) (c : Option AuthContinuation) :
    AuthOnly e { e with authContinuation := c } := ⟨rfl, .inl rfl⟩

theorem Exchange.aside {r : Engine × List SmtpAction} (hex : Exchange e r.1 r.2) :
    Aside e r := by
  obtain ⟨e', acts⟩ := r
  cases hex with
  | talk c acts hquiet =>
    refine ⟨clearAuth_authOnly e c, List.all_eq_true.mpr fun a ha => ?_⟩
    have hreport := hquiet a ha
    cases a <;> simp_all [SmtpAction.isAside, SmtpAction.isReport]
  | ask c user a ha =>
    refine ⟨⟨rfl, .inr (.inl rfl)⟩, ?_⟩
    cases a <;> simp_all [SmtpAction.isAside, SmtpAction.asksFor]
  | lookup session user => exact ⟨⟨rfl, .inr (.inr rfl)⟩, rfl⟩

theorem Exchange.push (e : Engine) (text : Text) : Exchange e e [.reply text] :=
  .talk e.authContinuation _ (quiet_reply text)

theorem Exchange.challenge (e : Engine) (c : Option AuthContinuation) (text : Text) :
    Exchange e { e with authContinuation := c } [.reply text] := .talk c _ (quiet_reply text)

theorem Exchange.done (c : Option AuthContinuation)
    (hex : Exchange { e with authContinuation := c } e' acts) : Exchange e e' acts := by
  cases hex with
  | talk c' acts hquiet => exact .talk c' acts hquiet
  | ask c' user a ha => exact .ask c' user a ha
  | lookup session user => exact .lookup session user

theorem requestAuth_exchange (user pass : Text) (e : Engine) :
    Exchange e (requestAuth user pass e).1 (requestAuth user pass e).2 :=
  .ask e.authContinuation user _ rfl

theorem finishPlainAuth_exchange (b64 : Text) (e : Engine) :
    Exchange e (finishPlainAuth b64 e).1 (finishPlainAuth b64 e).2 := by
  unfold finishPlainAuth
  split
  · exact .push e _
  · split
    · exact .push e _
    · exact requestAuth_exchange _ _ e

theorem finishOAuthAuth_exchange (m : OAuthMechanism) (b64 : Text) (e : Engine) :
    Exchange e (finishOAuthAuth m b64 e).1 (finishOAuthAuth m b64 e).2 := by
  unfold finishOAuthAuth
  split
  · exact .push e _
  · split
    · exact .push e _
    · exact requestAuth_exchange _ _ e

theorem scramRejected_exchange (step : ScramStep) (e : Engine) :
    Exchange e (scramRejected step e).1 (scramRejected step e).2 := by
  refine .talk none _ fun a ha => ?_
  have hcases : a = scramFailedAction step ∨ a = credentialsInvalid := by
    simpa [scramRejected] using ha
  rcases hcases with rfl | rfl
  · cases step <;> rfl
  · rfl

theorem beginScram_exchange (session : ScramServerSession) (b64 : Text) (e : Engine) :
    Exchange e (beginScram h session b64 e).1 (beginScram h session b64 e).2 := by
  unfold beginScram
  split
  · exact .challenge e none _
  · split
    · exact .lookup _ _
    · exact scramRejected_exchange _ e

theorem Allowed.push (e : Engine) (text : Text) : Allowed o e (e, [.reply text]) :=
  ⟨.push e text, .inr ⟨rfl, quiet_reply text⟩⟩

theorem exchange_ite {c : Prop} [Decidable c] {r r' : Engine × List SmtpAction}
    (hr : Exchange e r.1 r.2) (hr' : Exchange e r'.1 r'.2) :
    Exchange e (if c then r else r').1 (if c then r else r').2 := by
  split <;> assumption

theorem handleAuth_allowed (rest : Text) (e : Engine) : Allowed o e (handleAuth h o rest e) := by
  unfold handleAuth
  by_cases hallowed : authAllowed o e
  swap
  · rw [if_pos (by simpa using hallowed)]
    exact .push e _
  rw [if_neg (by simpa using hallowed)]
  refine ⟨exchange_ite (.push e _) ?_, .inl hallowed⟩
  dsimp only
  refine exchange_ite (exchange_ite (finishPlainAuth_exchange _ e) (.challenge e _ _)) ?_
  refine exchange_ite (exchange_ite ?_ (.challenge e _ _)) ?_
  · split
    · exact .push e _
    · exact .challenge e _ _
  refine exchange_ite (exchange_ite (.push e _)
    (exchange_ite (beginScram_exchange _ _ e) (.challenge e _ _))) ?_
  refine exchange_ite (exchange_ite (finishOAuthAuth_exchange _ _ e) (.challenge e _ _)) ?_
  exact exchange_ite (exchange_ite (finishOAuthAuth_exchange _ _ e) (.challenge e _ _)) (.push e _)

theorem handleAuthContinuationLine_exchange (cont : AuthContinuation) (line : Bytes) (e : Engine) :
    Exchange e (handleAuthContinuationLine h cont line e).1
      (handleAuthContinuationLine h cont line e).2 := by
  unfold handleAuthContinuationLine
  dsimp only
  split_ifs
  · exact .challenge e none _
  · exact .challenge e none _
  cases cont with
  | plain => exact .done none (finishPlainAuth_exchange _ _)
  | oauth m => exact .done none (finishOAuthAuth_exchange _ _ _)
  | scramKeys session => exact beginScram_exchange _ _ e
  | scramServerFinal session username => exact .ask none username _ rfl
  | scramFinal session =>
    dsimp only
    split
    · exact .challenge e none _
    · split
      · exact .challenge e _ _
      · exact scramRejected_exchange _ e
  | loginUsername =>
    dsimp only
    split
    · exact .challenge e none _
    · exact .challenge e _ _
  | loginPassword user =>
    dsimp only
    split
    · exact .challenge e none _
    · exact .done none (requestAuth_exchange _ _ _)

theorem handleAuthContinuationLine_aside (cont : AuthContinuation) (line : Bytes) (e : Engine) :
    Aside e (handleAuthContinuationLine h cont line e) :=
  (handleAuthContinuationLine_exchange cont line e).aside

private theorem natText_head {code : Nat} (hcode : code = 501 ∨ code = 504) :
    ∃ t, natText code = '5' :: t := by
  rcases hcode with rfl | rfl
  · exact ⟨['0', '1'], rfl⟩
  · exact ⟨['0', '4'], rfl⟩

private theorem foldlM_error {α β ε : Type} {f : β → α → Except ε β} {P : ε → Prop}
    (hf : ∀ b a err, f b a = .error err → P err) {xs : List α} {b : β} {err : ε}
    (hfold : xs.foldlM f b = .error err) : P err := by
  induction xs generalizing b with
  | nil => simp [pure, Except.pure] at hfold
  | cons a xs ih =>
    rw [List.foldlM_cons] at hfold
    cases hstep : f b a with
    | error e' =>
      rw [hstep] at hfold
      exact hf b a err (hstep.trans hfold)
    | ok b' =>
      rw [hstep] at hfold
      exact ih hfold

/-- The codes of the argument parsers' refusals. -/
def IsSyntaxCode (err : ParamSyntaxError) : Prop := err.code = 501 ∨ err.code = 504

private theorem mailParam_error (parsed : ParsedMailFrom) (token : Text)
    (err : ParamSyntaxError) (herr : mailParam u parsed token = .error err) : IsSyntaxCode err := by
  unfold mailParam at herr
  dsimp only at herr
  have h501 {m : String} (hm : (Except.error (syntaxError 501 "5.5.4" m) :
      Except ParamSyntaxError ParsedMailFrom) = .error err) : IsSyntaxCode err := by
    cases hm
    exact .inl rfl
  split at herr
  · split at herr
    · exact h501 herr
    · split at herr
      · exact h501 herr
      · cases herr
  repeat' split at herr
  all_goals first
    | exact h501 herr
    | cases herr
  exact .inr rfl

private theorem parseMailFromArgs_error {rest : Text}
    (herr : parseMailFromArgs u rest = .error err) : IsSyntaxCode err := by
  unfold parseMailFromArgs at herr
  split at herr
  · cases herr
    exact .inl rfl
  · dsimp only at herr
    split at herr
    · cases herr
    · exact foldlM_error mailParam_error herr

theorem refusal_not_accepted (hcode : IsSyntaxCode err) {d : Char}
    (hd : d ≠ '5') : repliesWith d [refusal err] = false := by
  obtain ⟨t, ht⟩ := natText_head hcode
  simp only [refusal, ht, List.cons_append, repliesWith, beq_eq_false_iff_ne]
  exact hd.symm

theorem CommandEffect.refuse {a : SmtpAction}
    (hquiet : a.isReport = true) (h2 : repliesWith '2' [a] = false)
    (h3 : repliesWith '3' [a] = false) : CommandEffect h o verb rest e e [a] := by
  have hnone : Quiet [a] := by simpa [Quiet] using hquiet
  have hex : Exchange e e [a] := .talk e.authContinuation [a] hnone
  have haside : Aside e (e, [a]) := hex.aside
  refine .aside e [a] haside.1 haside.2 ?_ ?_ ⟨hex, .inr ⟨rfl, hnone⟩⟩
  · rw [h2]
    intro hfalse
    cases hfalse
  · rw [h3]
    intro hfalse
    cases hfalse

theorem handleEhlo_effect (rest : Text) (e : Engine) :
    CommandEffect h o "EHLO".toList rest e (handleEhlo o rest e).1 (handleEhlo o rest e).2 := by
  unfold handleEhlo
  split
  · exact .refuse rfl rfl rfl
  · refine .greet _ (.inl rfl) ?_
    unfold ehloLines
    rfl

theorem handleHelo_effect (rest : Text) (e : Engine) :
    CommandEffect h o "HELO".toList rest e (handleHelo o rest e).1 (handleHelo o rest e).2 := by
  unfold handleHelo
  split
  · exact .refuse rfl rfl rfl
  · exact .greet _ (.inr rfl) rfl

theorem handleMail_effect (rest : Text) (e : Engine) :
    CommandEffect h o "MAIL".toList rest e (handleMail h o rest e).1 (handleMail h o rest e).2 := by
  unfold handleMail
  split
  · exact .refuse rfl rfl rfl
  split
  · exact .refuse rfl rfl rfl
  next hauth =>
  split
  · exact .refuse rfl rfl rfl
  next hstate =>
    split
    next err herr =>
      have hcode := parseMailFromArgs_error herr
      exact .refuse rfl (refusal_not_accepted hcode (by decide))
        (refusal_not_accepted hcode (by decide))
    next parsed hparse =>
      split
      · exact .refuse rfl rfl rfl
      · exact .mail parsed rfl (not_not.mp hstate) hparse fun hp hn => hauth ⟨hp, hn⟩

private theorem rcptParam_error (value : ParsedRcptTo) (token : Text)
    (err : ParamSyntaxError) (herr : rcptParam u value token = .error err) : IsSyntaxCode err := by
  unfold rcptParam at herr
  dsimp only at herr
  repeat' split at herr
  all_goals cases herr
  all_goals first
    | exact .inl rfl
    | exact .inr rfl

private theorem parseRcptToArgs_error {rest : Text}
    (herr : parseRcptToArgs u rest = .error err) : IsSyntaxCode err := by
  unfold parseRcptToArgs at herr
  split at herr
  · cases herr
    exact .inl rfl
  · split at herr
    · cases herr
      exact .inl rfl
    · dsimp only at herr
      split at herr
      · cases herr
      · exact foldlM_error rcptParam_error herr

theorem handleRcpt_effect (rest : Text) (e : Engine) :
    CommandEffect h o "RCPT".toList rest e (handleRcpt h rest e).1 (handleRcpt h rest e).2 := by
  unfold handleRcpt
  split
  · exact .refuse rfl rfl rfl
  next hstate =>
    split
    next err herr =>
      have hcode := parseRcptToArgs_error herr
      exact .refuse rfl (refusal_not_accepted hcode (by decide))
        (refusal_not_accepted hcode (by decide))
    next v hparse =>
      split
      · exact .refuse rfl rfl rfl
      next hcount =>
        refine .rcpt v rfl ?_ hparse (not_le.mp hcount)
        by_contra hnot
        exact hstate (not_or.mp hnot)

theorem handleData_effect (rest : Text) (e : Engine) :
    CommandEffect h o "DATA".toList rest e (handleData rest e).1 (handleData rest e).2 := by
  unfold handleData
  split
  · exact .refuse rfl rfl rfl
  split
  · exact .refuse rfl rfl rfl
  next hstate => exact .data rfl (not_not.mp hstate)

theorem handleBdat_effect (rest : Text) (e : Engine) :
    CommandEffect h o "BDAT".toList rest e (handleBdat h o rest e).1 (handleBdat h o rest e).2 := by
  unfold handleBdat
  split
  · exact .refuse rfl rfl rfl
  next hstate =>
    split
    · exact .refuse rfl rfl rfl
    next digits last hparse =>
      split
      · exact .refuse rfl rfl rfl
      next n hn =>
        refine .bdat digits last n rfl ?_ hparse hn
        by_contra hnot
        exact hstate (not_or.mp hnot)

theorem handleStartTls_effect (verb rest : Text) (e : Engine) :
    CommandEffect h o verb rest e (handleStartTls o e).1 (handleStartTls o e).2 := by
  unfold handleStartTls
  split
  · exact .refuse rfl rfl rfl
  split
  · exact .refuse rfl rfl rfl
  next htls => exact .startTls (by simpa using htls)

theorem CommandEffect.other {r : Engine × List SmtpAction}
    (hr : Allowed o e r)
    (hverb : verb ∉ ["EHLO".toList, "HELO".toList, "MAIL".toList, "RSET".toList, "DATA".toList]) :
    CommandEffect h o verb rest e r.1 r.2 := by
  simp only [List.mem_cons, List.not_mem_nil, or_false, not_or] at hverb
  obtain ⟨h1, h2, h3, h4, h5⟩ := hverb
  have haside := hr.1.aside
  exact .aside r.1 r.2 haside.1 haside.2 (fun _ => ⟨h1, h2, h3, h4⟩) (fun _ => h5) hr

private theorem effect_ite {c : Prop} [Decidable c]
    {f g : Handler} (hf : c → CommandEffect h o verb rest e (f e).1 (f e).2)
    (hg : CommandEffect h o verb rest e (g e).1 (g e).2) :
    CommandEffect h o verb rest e ((if c then f else g) e).1 ((if c then f else g) e).2 := by
  split
  next hc => exact hf hc
  · exact hg

theorem handleVerb_effect (verb rest : Text) (e : Engine) :
    CommandEffect h o verb rest e (handleVerb h o verb rest e).1 (handleVerb h o verb rest e).2 := by
  unfold handleVerb
  refine effect_ite (fun hv => hv ▸ handleEhlo_effect rest e) ?_
  refine effect_ite (fun hv => hv ▸ handleHelo_effect rest e) ?_
  refine effect_ite (fun hv => hv ▸ handleMail_effect rest e) ?_
  refine effect_ite (fun hv => hv ▸ handleRcpt_effect rest e) ?_
  refine effect_ite (fun hv => hv ▸ handleData_effect rest e) ?_
  refine effect_ite (fun hv => hv ▸ handleBdat_effect rest e) ?_
  refine effect_ite (fun hv => .reset hv) ?_
  refine effect_ite (fun hv => .other (.push e _) (by rw [hv]; decide +kernel)) ?_
  refine effect_ite (fun _ => .quit) ?_
  refine effect_ite (fun hv => ?_) ?_
  · unfold handleVrfy
    exact effect_ite (fun _ => .refuse rfl rfl rfl) (.other (.push e _) (by rw [hv]; decide +kernel))
  refine effect_ite (fun _ => .refuse rfl rfl rfl) ?_
  refine effect_ite (fun hv => .other (.push e _) (by rw [hv]; decide +kernel)) ?_
  refine effect_ite (fun _ => handleStartTls_effect verb rest e) ?_
  refine effect_ite (fun hv => .other (handleAuth_allowed rest e) (by rw [hv]; decide +kernel)) ?_
  exact .refuse rfl rfl rfl

theorem handleCommandLine_effect (line : Bytes) (e : Engine) :
    CommandEffect h o (splitVerb h.cases (utf8Decode line)).1
      (splitVerb h.cases (utf8Decode line)).2 e
      (handleCommandLine h o line e).1 (handleCommandLine h o line e).2 := by
  unfold handleCommandLine
  split
  · exact .refuse rfl rfl rfl
  dsimp only
  split
  · exact .refuse rfl rfl rfl
  · exact handleVerb_effect _ _ e

variable (h o) in
/-- The passes of the loop from an engine to the one it stops at. -/
inductive Loop : Engine → List Turn → Engine → Prop
  | stop {e : Engine} (hrun : running e = false) : Loop e [] e
  | leave {e : Engine} (hrun : running e = true) (hagain : (turn h o e).again = false) :
      Loop e [turn h o e] (turn h o e).after
  | again {e e' : Engine} {ts : List Turn} (hrun : running e = true)
      (hagain : (turn h o e).again = true) (hloop : Loop (turn h o e).after ts e') :
      Loop e (turn h o e :: ts) e'

theorem cut_of_index {i : Nat} (hi : indexOfCRLF buf = some i) :
    Lines.cut CR LF buf = some (buf.take i, buf.drop (i + 2)) := by
  rw [Lines.cut_eq_index]
  simp only [indexOfCRLF] at hi
  rw [hi, Option.map_some]

theorem cut_of_no_index (hi : indexOfCRLF buf = none) :
    Lines.cut CR LF buf = none := by
  rw [Lines.cut_eq_index]
  simp only [indexOfCRLF] at hi
  rw [hi, Option.map_none]

theorem length_drop_of_index {i : Nat} (hi : indexOfCRLF buf = some i) :
    (buf.drop (i + 2)).length + 2 ≤ buf.length := by
  have hlen := Lines.length_of_cut (cut_of_index hi)
  omega

theorem CommandEffect.buffer_le (heff : CommandEffect h o verb rest e e' acts) :
    e'.buffer.length ≤ e.buffer.length := by
  cases heff with
  | startTls => exact Nat.zero_le _
  | aside _ _ hsame => rw [hsame.same]
  | _ => exact le_refl _

/-- What the loop has left to do; a finished chunk is worth half a byte. -/
def work (e : Engine) : Nat :=
  2 * e.buffer.length + if e.state = .bdat ∧ e.awaiting = none then 1 else 0

private theorem work_le (e : Engine) : work e ≤ 2 * e.buffer.length + 1 := by
  unfold work
  split <;> omega

private theorem work_lt_of_line (hlen : e'.buffer.length + 2 ≤ e.buffer.length) :
    work e' < work e := by
  have h1 := work_le e'
  have h2 : 2 * e.buffer.length ≤ work e := Nat.le_add_right _ _
  omega

theorem finishChunk_leaves (e : Engine) :
    (finishChunk e).1.buffer = e.buffer ∧
      ((finishChunk e).1.state ≠ .bdat ∨ (finishChunk e).1.awaiting ≠ none) := by
  unfold finishChunk
  split_ifs with hover hlast
  · exact ⟨rfl, .inl (by simp)⟩
  · exact ⟨rfl, .inl (by simp)⟩
  · unfold finishData
    rw [if_neg hover]
    exact ⟨rfl, .inr (by simp)⟩

private theorem finishData_buffer (e : Engine) : (finishData e).1.buffer = e.buffer := by
  unfold finishData
  split_ifs <;> rfl

private theorem storeDataLine_buffer (line : Bytes) (e : Engine) :
    (storeDataLine o line e).buffer = e.buffer := by
  unfold storeDataLine
  split_ifs
  · rfl
  · dsimp only
    split_ifs <;> rfl

theorem turn_auth {cont : AuthContinuation} (hc : e.authContinuation = some cont) :
    turn h o e = turnAuth h cont e := by
  simp only [turn, hc]

theorem turn_data (hc : e.authContinuation = none) (hs : e.state = .data) :
    turn h o e = turnData o e := by
  simp only [turn, hc, hs]

theorem turn_bdat (hc : e.authContinuation = none) (hs : e.state = .bdat) :
    turn h o e = turnBdat e := by
  simp only [turn, hc, hs]

theorem turn_command (hc : e.authContinuation = none) (hd : e.state ≠ .data)
    (hb : e.state ≠ .bdat) : turn h o e = turnCommand h o e := by
  unfold turn
  rw [hc]
  cases hs : e.state with
  | data => exact absurd hs hd
  | bdat => exact absurd hs hb
  | _ => rfl

private theorem turnAuth_work {cont : AuthContinuation}
    (hagain : (turnAuth h cont e).again = true) : work (turnAuth h cont e).after < work e := by
  unfold turnAuth at hagain ⊢
  cases hi : indexOfCRLF e.buffer with
  | none =>
    rw [hi] at hagain
    dsimp only at hagain
    split at hagain <;> cases hagain
  | some i =>
    apply work_lt_of_line
    dsimp only
    rw [(handleAuthContinuationLine_aside _ _ _).1.same]
    exact length_drop_of_index hi

private theorem turnData_work (hagain : (turnData o e).again = true) :
    work (turnData o e).after < work e := by
  unfold turnData at hagain ⊢
  cases hi : indexOfCRLF e.buffer with
  | none =>
    rw [hi] at hagain
    cases hagain
  | some i =>
    have hlen := length_drop_of_index hi
    apply work_lt_of_line
    dsimp only
    split_ifs
    · dsimp only
      rw [finishData_buffer]
      exact hlen
    · dsimp only
      rw [storeDataLine_buffer]
      exact hlen

private theorem turnBdat_work (hs : e.state = .bdat) (hw : e.awaiting = none)
    (hagain : (turnBdat e).again = true) : work (turnBdat e).after < work e := by
  have hfinish {e₁ : Engine} (hbuf : e₁.buffer.length ≤ e.buffer.length) :
      work (finishChunk e₁).1 < work e := by
    obtain ⟨hsame, hleft⟩ := finishChunk_leaves e₁
    have hout : ¬((finishChunk e₁).1.state = .bdat ∧ (finishChunk e₁).1.awaiting = none) := by
      rintro ⟨h1, h2⟩
      exact hleft.elim (fun hn => hn h1) (fun hn => hn h2)
    unfold work
    rw [if_neg hout, if_pos ⟨hs, hw⟩, hsame]
    omega
  unfold turnBdat at hagain ⊢
  split_ifs at hagain ⊢ with hpos hbuf hrem
  · apply hfinish
    simp only [takeChunk, List.length_drop]
    omega
  · exact hfinish le_rfl

private theorem turnCommand_work (hagain : (turnCommand h o e).again = true) :
    work (turnCommand h o e).after < work e := by
  unfold turnCommand at hagain ⊢
  cases hi : indexOfCRLF e.buffer with
  | none =>
    rw [hi] at hagain
    dsimp only at hagain
    split at hagain <;> cases hagain
  | some i =>
    apply work_lt_of_line
    have hle := (handleCommandLine_effect (h := h) (o := o) (e.buffer.take i)
      { e with buffer := e.buffer.drop (i + 2) }).buffer_le
    have hlen := length_drop_of_index hi
    dsimp only at hle ⊢
    omega

theorem turn_work (hrun : running e = true) (hagain : (turn h o e).again = true) :
    work (turn h o e).after < work e := by
  have hw : e.awaiting = none := by
    simp only [running, Bool.and_eq_true, Option.isNone_iff_eq_none] at hrun
    exact hrun.1
  cases hc : e.authContinuation with
  | some cont =>
    rw [turn_auth hc] at hagain ⊢
    exact turnAuth_work hagain
  | none =>
    by_cases hd : e.state = .data
    · rw [turn_data hc hd] at hagain ⊢
      exact turnData_work hagain
    by_cases hb : e.state = .bdat
    · rw [turn_bdat hc hb] at hagain ⊢
      exact turnBdat_work hb hw hagain
    · rw [turn_command hc hd hb] at hagain ⊢
      exact turnCommand_work hagain

private theorem loop_of_fuel {n : Nat} (hn : work e < n) :
    Loop h o e (turns h o n e) (lastEngine e (turns h o n e)) := by
  induction n generalizing e with
  | zero => omega
  | succ n ih =>
    cases hrun : running e with
    | false =>
      simp only [turns, hrun, Bool.false_eq_true, if_false]
      exact .stop hrun
    | true =>
      simp only [turns, hrun, if_true]
      cases hagain : (turn h o e).again with
      | false => exact .leave hrun hagain
      | true =>
        have hwork := turn_work hrun hagain
        exact .again hrun hagain (ih (by omega))

theorem pump_loop (hover : e.pendingOverflow = false) :
    Loop h o e (pump h o e).turns (pump h o e).engine := by
  have hwork := work_le e
  have hloop : Loop h o e (turns h o (fuel e) e) (lastEngine e (turns h o (fuel e) e)) :=
    loop_of_fuel (by unfold fuel; omega)
  simp only [pump, hover, Bool.false_eq_true, if_false]
  exact hloop

inductive Call where
  | feed (chunk : Bytes)
  | rcptResult (outcome : RcptOutcome)
  | deliveryResult (outcome : DeliverOutcome)
  | authResult (ok : Bool)
  | scramKeysResult (keys : Option ScramStoredKeys)
  | tlsUpgraded

variable {c : Call} {cs : List Call}

variable (h o) in
/-- One call; `none` where the method throws. The adapter reports an upgrade only
in answer to `startTls`. -/
def call (c : Call) (e : Engine) : Option Result :=
  match c with
  | .feed chunk => some (feed h o chunk e)
  | .rcptResult outcome => rcptResult h o outcome e
  | .deliveryResult outcome => deliveryResult h o outcome e
  | .authResult ok => authResult h o ok e
  | .scramKeysResult keys => scramKeysResult h o keys e
  | .tlsUpgraded => if e.awaiting = some .tls then some ⟨tlsUpgraded e, [], []⟩ else none

/-- A call up to the loop: the engine the loop starts from, the actions of the call
itself, and whether the loop runs at all. -/
structure Prepared where
  engine : Engine
  actions : List SmtpAction
  loops : Bool

variable {p : Prepared}

def prepareFeed (chunk : Bytes) (e : Engine) : Prepared :=
  if e.closed then ⟨e, [], false⟩
  else if e.awaiting.isSome then
    if maxPipelinePendingBytes < e.buffer.length + chunk.length then
      ⟨{ e with pendingOverflow := true }, [], false⟩
    else ⟨{ e with buffer := e.buffer ++ chunk }, [], false⟩
  else ⟨{ e with buffer := e.buffer ++ chunk }, [], true⟩

def rcptAnswered (outcome : RcptOutcome) (e : Engine) : Engine × List SmtpAction :=
  let address := e.pendingRcptAddress.getD []
  let e := { e with pendingRcptAddress := none, awaiting := none }
  match outcome with
  | .ok () =>
    ({ e with rcptTo := e.rcptTo ++ [address], state := .rcpt },
      [.reply ("250 2.1.5 ".toList ++ address ++ " OK".toList ++ crlf)])
  | .error r => (e, [refusal r])

def deliveryReply : DeliverOutcome → SmtpAction
  | .ok (some queuedId) => .reply ("250 2.6.0 queued as ".toList ++ queuedId ++ crlf)
  | .ok none => reply 250 "2.6.0" "OK"
  | .error r => refusal r

def authAnswered (ok : Bool) (e : Engine) : Engine × List SmtpAction :=
  let user := e.pendingAuthUser
  let e := { e with pendingAuthUser := none, awaiting := none }
  if ok then ({ e with authenticatedAs := user }, [reply 235 "2.7.0" "Authentication successful"])
  else (e, [credentialsInvalid])

variable (h) in
def keysProvided (keys : Option ScramStoredKeys) (e : Engine) : Engine × List SmtpAction :=
  let e := { e with awaiting := none }
  match e.authContinuation with
  | some (.scramKeys session) | some (.scramFinal session)
  | some (.scramServerFinal session _) =>
    match session.provideKeys h keys with
    | (session, .send message) =>
      ({ e with authContinuation := some (.scramFinal session) },
        [rawReply ("334 ".toList ++ base64Encode (utf8Encode message))])
    | (_, step) => scramRejected step e
  | _ => (e, [])

def answered (r : Engine × List SmtpAction) : Prepared := ⟨r.1, r.2, true⟩

variable (h) in
def prepare (c : Call) (e : Engine) : Option Prepared :=
  match c with
  | .feed chunk => some (prepareFeed chunk e)
  | .rcptResult outcome =>
    if e.awaiting = some .rcpt then some (answered (rcptAnswered outcome e)) else none
  | .deliveryResult outcome =>
    if e.awaiting = some .deliver then
      some (answered (resetTransaction { e with awaiting := none }, [deliveryReply outcome]))
    else none
  | .authResult ok =>
    if e.awaiting = some .auth then some (answered (authAnswered ok e)) else none
  | .scramKeysResult keys =>
    if e.awaiting = some .scramKeys then some (answered (keysProvided h keys e)) else none
  | .tlsUpgraded => if e.awaiting = some .tls then some ⟨tlsUpgraded e, [], false⟩ else none

variable (h o) in
def Prepared.finish (p : Prepared) : Result :=
  if p.loops then resume h o p.engine p.actions else ⟨p.engine, p.actions, []⟩

def Call.isAnswer : Call → Bool
  | .feed _ => false
  | .tlsUpgraded => false
  | _ => true

variable (h o) in
/-- The end of a call; an answer throws where it has too many actions to push. -/
def Prepared.conclude (c : Call) (p : Prepared) : Option Result :=
  if c.isAnswer then
    if h.argumentLimit < (pump h o p.engine).actions.length then none else some (p.finish h o)
  else some (p.finish h o)

theorem feed_eq (chunk : Bytes) (e : Engine) :
    feed h o chunk e = (prepareFeed chunk e).finish h o := by
  unfold feed prepareFeed Prepared.finish
  split_ifs <;> first
    | rfl
    | contradiction

private theorem keysProvided_eq (keys : Option ScramStoredKeys)
    (hwait : e.awaiting = some .scramKeys) :
    scramKeysResult h o keys e =
      resumeAnswer h o (keysProvided h keys e).1 (keysProvided h keys e).2 := by
  unfold scramKeysResult keysProvided
  rw [if_neg (not_not.mpr hwait)]
  dsimp only
  generalize e.authContinuation = c
  rcases c with _ | cont
  · rfl
  · cases cont with
    | scramKeys session | scramFinal session | scramServerFinal session _ =>
      dsimp only
      generalize session.provideKeys h keys = r
      obtain ⟨session, step⟩ := r
      cases step <;> rfl
    | _ => rfl

theorem call_eq (c : Call) (e : Engine) :
    call h o c e = (prepare h c e).bind (Prepared.conclude h o c) := by
  cases c with
  | feed chunk => exact congrArg some (feed_eq chunk e)
  | rcptResult outcome =>
    by_cases hwait : e.awaiting = some .rcpt
    · rw [call, rcptResult, if_neg (not_not.mpr hwait), prepare, if_pos hwait]
      rcases outcome with err | ⟨⟩ <;> rfl
    · rw [call, rcptResult, if_pos hwait, prepare, if_neg hwait]
      rfl
  | deliveryResult outcome =>
    by_cases hwait : e.awaiting = some .deliver
    · rw [call, deliveryResult.eq_def, if_neg (not_not.mpr hwait), prepare, if_pos hwait]
      rcases outcome with err | ⟨_ | queuedId⟩ <;> rfl
    · rw [call, deliveryResult.eq_def, if_pos hwait, prepare, if_neg hwait]
      rfl
  | authResult ok =>
    by_cases hwait : e.awaiting = some .auth
    · rw [call, authResult, if_neg (not_not.mpr hwait), prepare, if_pos hwait]
      cases ok <;> rfl
    · rw [call, authResult, if_pos hwait, prepare, if_neg hwait]
      rfl
  | scramKeysResult keys =>
    by_cases hwait : e.awaiting = some .scramKeys
    · rw [call, keysProvided_eq keys hwait, prepare, if_pos hwait]
      rfl
    · rw [call, scramKeysResult, if_pos hwait, prepare, if_neg hwait]
      rfl
  | tlsUpgraded =>
    simp only [call, prepare]
    split_ifs <;> rfl

theorem prepared_of_call (hcall : call h o c e = some r) :
    ∃ p, prepare h c e = some p ∧ r = p.finish h o := by
  rw [call_eq, Option.bind_eq_some_iff] at hcall
  obtain ⟨p, hp, hr⟩ := hcall
  refine ⟨p, hp, ?_⟩
  unfold Prepared.conclude at hr
  split_ifs at hr
  all_goals exact (Option.some.inj hr).symm

/-- What a run records: bytes the engine takes in, other calls, loop passes. -/
inductive Entry where
  | fed (chunk : Bytes)
  | called (c : Call)
  | pass (t : Turn)

variable {es : List Entry}

def callEntry (c : Call) (e : Engine) : Entry :=
  match c with
  | .feed chunk => if e.closed then .called c else .fed chunk
  | _ => .called c

variable (h o) in
def run (e : Engine) : List Call → Option (List Entry × Engine)
  | [] => some ([], e)
  | c :: cs =>
    match call h o c e with
    | none => none
    | some r => (run r.engine cs).map fun p => (callEntry c e :: r.turns.map .pass ++ p.1, p.2)

/-- A new session; on a TLS port the adapter reports the upgrade at once. -/
def newEngine (implicitTls : Bool) : Engine := if implicitTls then tlsUpgraded {} else {}

def fedBytes (es : List Entry) : Bytes :=
  es.flatMap fun
    | .fed chunk => chunk
    | _ => []

@[simp] theorem fedBytes_nil : fedBytes [] = [] := rfl

@[simp] theorem fedBytes_append (es es' : List Entry) :
    fedBytes (es ++ es') = fedBytes es ++ fedBytes es' := by
  simp only [fedBytes, List.flatMap_append]

@[simp] theorem fedBytes_cons_fed (chunk : Bytes) (es : List Entry) :
    fedBytes (.fed chunk :: es) = chunk ++ fedBytes es := rfl

@[simp] theorem fedBytes_cons_called (c : Call) (es : List Entry) :
    fedBytes (.called c :: es) = fedBytes es := rfl

@[simp] theorem fedBytes_cons_pass (t : Turn) (es : List Entry) :
    fedBytes (.pass t :: es) = fedBytes es := rfl

@[simp] theorem fedBytes_passes (ts : List Turn) : fedBytes (ts.map .pass) = [] := by
  induction ts with
  | nil => rfl
  | cons t ts ih => simpa using ih

theorem call_turns (hcall : call h o c e = some r) :
    r.turns = [] ∨ ∃ e₀ e₁ acts, e₀.pendingOverflow = false ∧ Loop h o e₀ r.turns e₁ ∧
      r.engine = (guardErrors e₁ acts).1 := by
  obtain ⟨p, -, rfl⟩ := prepared_of_call hcall
  unfold Prepared.finish
  split_ifs
  · cases hover : p.engine.pendingOverflow with
    | true =>
      left
      simp only [resume, pump, hover, if_true]
    | false => exact .inr ⟨p.engine, _, _, hover, pump_loop hover, rfl⟩
  · exact .inl rfl

theorem CommandEffect.pendingOverflow_eq (heff : CommandEffect h o verb rest e e' acts) :
    e'.pendingOverflow = e.pendingOverflow := by
  cases heff with
  | aside _ _ hsame => rw [hsame.same]
  | _ => rfl

private theorem finishData_pendingOverflow (e : Engine) :
    (finishData e).1.pendingOverflow = e.pendingOverflow := by
  unfold finishData
  split_ifs <;> rfl

/-- The flag for pipelined bytes lost while waiting is not touched by the loop. -/
theorem turn_pendingOverflow (e : Engine) :
    (turn h o e).after.pendingOverflow = e.pendingOverflow := by
  cases hc : e.authContinuation with
  | some cont =>
    rw [turn_auth hc]
    unfold turnAuth
    split
    · split_ifs <;> rfl
    · dsimp only
      rw [(handleAuthContinuationLine_aside _ _ _).1.same]
  | none =>
    by_cases hd : e.state = .data
    · rw [turn_data hc hd]
      unfold turnData guardDataBuffer storeDataLine
      split
      · split_ifs <;> rfl
      · dsimp only
        split_ifs
        · exact finishData_pendingOverflow _
        all_goals rfl
    by_cases hb : e.state = .bdat
    · rw [turn_bdat hc hb]
      have hfinish (e₁ : Engine) : (finishChunk e₁).1.pendingOverflow = e₁.pendingOverflow := by
        unfold finishChunk
        split_ifs
        · rfl
        · rfl
        · exact finishData_pendingOverflow _
      unfold turnBdat
      split_ifs
      · rfl
      · rfl
      · exact hfinish _
      · exact hfinish _
    · rw [turn_command hc hd hb]
      unfold turnCommand
      split
      · split_ifs <;> rfl
      · exact (handleCommandLine_effect _ _).pendingOverflow_eq

@[simp] theorem turn_before (e : Engine) : (turn h o e).before = e := by
  cases hc : e.authContinuation with
  | some cont =>
    rw [turn_auth hc]
    unfold turnAuth
    split
    · split_ifs <;> rfl
    · rfl
  | none =>
    by_cases hd : e.state = .data
    · rw [turn_data hc hd]
      unfold turnData
      split
      · rfl
      · dsimp only
        split_ifs <;> rfl
    by_cases hb : e.state = .bdat
    · rw [turn_bdat hc hb]
      unfold turnBdat
      split_ifs <;> rfl
    · rw [turn_command hc hd hb]
      unfold turnCommand
      split
      · split_ifs <;> rfl
      · rfl

theorem Loop.split {ts ts₁ ts₂ : List Turn}
    (hloop : Loop h o e ts e') (hts : ts = ts₁ ++ t :: ts₂) :
    ∃ b, running b = true ∧ b.pendingOverflow = e.pendingOverflow ∧ t = turn h o b ∧
      (t.again = true → Loop h o t.after ts₂ e') ∧
      (t.again = false → ts₂ = [] ∧ e' = t.after) := by
  induction hloop generalizing ts₁ with
  | stop hrun => simp at hts
  | @leave e hrun hagain =>
    obtain ⟨rfl, ht, rfl⟩ : ts₁ = [] ∧ turn h o e = t ∧ ts₂ = [] := by
      rcases ts₁ with _ | ⟨x, ts₁⟩ <;> simp_all
    subst ht
    refine ⟨e, hrun, rfl, rfl, fun hc => ?_, fun _ => ⟨rfl, rfl⟩⟩
    rw [hagain] at hc
    cases hc
  | @again e e' ts hrun hagain hloop ih =>
    cases ts₁ with
    | nil =>
      obtain ⟨rfl, rfl⟩ := List.cons.inj hts
      refine ⟨e, hrun, rfl, rfl, fun _ => hloop, fun hc => ?_⟩
      rw [hagain] at hc
      cases hc
    | cons x ts₁ =>
      obtain ⟨b, hb, hover, hrest⟩ := ih (List.cons.inj hts).2
      exact ⟨b, hb, hover.trans (turn_pendingOverflow e), hrest⟩

/-- What a run did after one of its passes: the rest of that loop, the count of
errors, then the later calls. -/
structure AfterPass (h : Host) (o : Options) (t : Turn) (post : List Entry) (e' : Engine) where
  ts : List Turn
  stopped : Engine
  acts : List SmtpAction
  calls : List Call
  rest : List Entry
  entries : post = ts.map .pass ++ rest
  loop : t.again = true → Loop h o t.after ts stopped
  leave : t.again = false → ts = [] ∧ stopped = t.after
  later : run h o (guardErrors stopped acts).1 calls = some (rest, e')

theorem callEntry_ne_pass (c : Call) (e : Engine) (t : Turn) : callEntry c e ≠ .pass t := by
  cases c with
  | feed chunk =>
    simp only [callEntry]
    split_ifs <;> simp
  | _ => simp [callEntry]

theorem run_cons (hrun : run h o e (c :: cs) = some (es, e')) :
    ∃ r rest, call h o c e = some r ∧ run h o r.engine cs = some (rest, e') ∧
      es = callEntry c e :: (r.turns.map .pass ++ rest) := by
  simp only [run] at hrun
  cases hcall : call h o c e with
  | none => simp [hcall] at hrun
  | some r =>
    rw [hcall] at hrun
    obtain ⟨⟨rest, e₂⟩, hrest, heq⟩ := Option.map_eq_some_iff.mp hrun
    obtain ⟨rfl, rfl⟩ := Prod.mk.inj heq
    exact ⟨r, rest, rfl, hrest, rfl⟩

theorem run_at_pass {es pre post : List Entry}
    (hrun : run h o e cs = some (es, e')) (hes : es = pre ++ Entry.pass t :: post) :
    (running t.before = true ∧ t.before.pendingOverflow = false ∧ t = turn h o t.before) ∧
      Nonempty (AfterPass h o t post e') := by
  induction cs generalizing e es pre with
  | nil =>
    obtain ⟨rfl, rfl⟩ := Prod.mk.inj (Option.some.inj hrun)
    simp at hes
  | cons c cs ih =>
    obtain ⟨r, es₂, hcall, hrest, rfl⟩ := run_cons hrun
    cases pre with
    | nil => exact absurd (List.cons.inj hes).1 (callEntry_ne_pass c e t)
    | cons x pre =>
      rcases List.append_eq_append_iff.mp (List.cons.inj hes).2 with ⟨m, hpre, hes₂⟩ | ⟨m, hts, hm⟩
      · exact ih hrest hes₂
      · cases m with
        | nil => exact ih hrest (show es₂ = [] ++ Entry.pass t :: post from hm.symm)
        | cons y m =>
          obtain ⟨rfl, rfl⟩ := List.cons.inj hm
          obtain ⟨ts₁, ts₂', hr, -, hm'⟩ := List.map_eq_append_iff.mp hts
          obtain ⟨t', ts₂, rfl, ht', rfl⟩ := List.map_eq_cons_iff.mp hm'
          obtain rfl := Entry.pass.inj ht'
          rcases call_turns hcall with hnil | ⟨e₀, e₁, acts, hover, hloop, hguard⟩
          · simp [hnil] at hr
          · obtain ⟨b, hb, hbo, ht, hagain, hleave⟩ := hloop.split hr
            have hbefore : t'.before = b := by rw [ht, turn_before]
            rw [hbefore]
            refine ⟨⟨hb, hbo.trans hover, ht⟩, ⟨⟨ts₂, e₁, acts, cs, es₂, rfl, hagain, hleave, ?_⟩⟩⟩
            rw [← hguard]
            exact hrest

theorem running_iff : running e = true ↔ e.awaiting = none ∧ e.closed = false := by
  simp [running]

theorem append_cons_cases {α : Type} {P es before after : List α} {x : α}
    (heq : P ++ es = before ++ x :: after) :
    (∃ before', before = P ++ before' ∧ es = before' ++ x :: after) ∨
      ∃ P₂, P = before ++ x :: P₂ ∧ after = P₂ ++ es := by
  rcases List.append_eq_append_iff.mp heq with ⟨m, rfl, rfl⟩ | ⟨m, rfl, hm⟩
  · exact .inl ⟨m, rfl, rfl⟩
  · cases m with
    | nil => exact .inl ⟨[], by simp, by simpa using hm.symm⟩
    | cons y m =>
      obtain ⟨rfl, rfl⟩ := List.cons.inj hm
      exact .inr ⟨m, rfl, rfl⟩

theorem guardErrors_cases (e : Engine) (acts : List SmtpAction) :
    (guardErrors e acts).1 = e ∨ (∃ n, (guardErrors e acts).1 = { e with errorCount := n }) ∨
      ∃ n, (guardErrors e acts).1 = { e with errorCount := n, closed := true, buffer := [] } := by
  unfold guardErrors
  split_ifs
  · exact .inl rfl
  · dsimp only
    split_ifs
    · exact .inr (.inl ⟨_, rfl⟩)
    · exact .inr (.inr ⟨_, rfl⟩)

theorem run_closed (hrun : run h o e cs = some (es, e')) (hclosed : e.closed = true)
    (hwait : e.awaiting = none) :
    ∃ calls : List Call, es = calls.map .called := by
  induction cs generalizing es with
  | nil =>
    obtain ⟨rfl, -⟩ := Prod.mk.inj (Option.some.inj hrun)
    exact ⟨[], rfl⟩
  | cons c cs ih =>
    obtain ⟨r, rest, hcall, hrest, rfl⟩ := run_cons hrun
    cases c with
    | feed chunk =>
      simp only [call, feed, hclosed, if_true, Option.some.injEq] at hcall
      subst hcall
      obtain ⟨calls, rfl⟩ := ih hrest
      exact ⟨.feed chunk :: calls, by simp [callEntry, hclosed]⟩
    | rcptResult outcome => simp [call, rcptResult, hwait] at hcall
    | deliveryResult outcome => simp [call, deliveryResult, hwait] at hcall
    | authResult ok => simp [call, authResult, hwait] at hcall
    | scramKeysResult keys => simp [call, scramKeysResult, hwait] at hcall
    | tlsUpgraded => simp [call, hwait] at hcall

theorem feed_open (hclosed : e.closed = false) (hwait : e.awaiting = none)
    (chunk : Bytes) : feed h o chunk e = resume h o { e with buffer := e.buffer ++ chunk } [] := by
  unfold feed
  rw [if_neg (by simp [hclosed]), if_neg (by simp [hwait])]

theorem run_open (hrun : run h o e (c :: cs) = some (es, e')) (hclosed : e.closed = false)
    (hwait : e.awaiting = none) (hover : e.pendingOverflow = false) :
    ∃ chunk ts e₁ acts rest, es = .fed chunk :: (ts.map .pass ++ rest) ∧
      Loop h o { e with buffer := e.buffer ++ chunk } ts e₁ ∧
      run h o (guardErrors e₁ acts).1 cs = some (rest, e') := by
  obtain ⟨r, rest, hcall, hrest, rfl⟩ := run_cons hrun
  cases c with
  | feed chunk =>
    rw [call, feed_open hclosed hwait, Option.some.injEq] at hcall
    subst hcall
    have hentry : callEntry (.feed chunk) e = .fed chunk := by simp [callEntry, hclosed]
    rw [hentry]
    exact ⟨chunk, _, _, _, rest, rfl, pump_loop hover, hrest⟩
  | rcptResult outcome => simp [call, rcptResult, hwait] at hcall
  | deliveryResult outcome => simp [call, deliveryResult, hwait] at hcall
  | authResult ok => simp [call, authResult, hwait] at hcall
  | scramKeysResult keys => simp [call, scramKeysResult, hwait] at hcall
  | tlsUpgraded => simp [call, hwait] at hcall

/-- What a call does to the engine before the loop resumes. -/
inductive CallEffect (e : Engine) : Call → Engine → Prop
  | feed (chunk : Bytes) : CallEffect e (.feed chunk) { e with buffer := e.buffer ++ chunk }
  | feedLost (chunk : Bytes) (b : Bool) : CallEffect e (.feed chunk) { e with pendingOverflow := b }
  | rcptOk (hwait : e.awaiting = some .rcpt) :
      CallEffect e (.rcptResult (.ok ()))
        { e with
          pendingRcptAddress := none
          awaiting := none
          rcptTo := e.rcptTo ++ [e.pendingRcptAddress.getD []]
          state := .rcpt }
  | rcptError (r : Refusal) (hwait : e.awaiting = some .rcpt) :
      CallEffect e (.rcptResult (.error r)) { e with pendingRcptAddress := none, awaiting := none }
  | delivery (outcome : DeliverOutcome) (hwait : e.awaiting = some .deliver) :
      CallEffect e (.deliveryResult outcome) (resetTransaction { e with awaiting := none })
  | auth (ok : Bool) (user : Option Text) (hwait : e.awaiting = some .auth) :
      CallEffect e (.authResult ok)
        { e with pendingAuthUser := none, awaiting := none, authenticatedAs := user }
  | scram (keys : Option ScramStoredKeys) (c : Option AuthContinuation)
      (hwait : e.awaiting = some .scramKeys) :
      CallEffect e (.scramKeysResult keys) { e with awaiting := none, authContinuation := c }
  | tls (hwait : e.awaiting = some .tls) : CallEffect e .tlsUpgraded (tlsUpgraded e)

variable (h) in
/-- A call the engine takes, and what it makes of it before its loop. -/
inductive Prepares (e : Engine) : Call → Prepared → Prop
  | feed (chunk : Bytes) : Prepares e (.feed chunk) (prepareFeed chunk e)
  | rcptResult (outcome : RcptOutcome) (hwait : e.awaiting = some .rcpt) :
      Prepares e (.rcptResult outcome) (answered (rcptAnswered outcome e))
  | deliveryResult (outcome : DeliverOutcome) (hwait : e.awaiting = some .deliver) :
      Prepares e (.deliveryResult outcome)
        (answered (resetTransaction { e with awaiting := none }, [deliveryReply outcome]))
  | authResult (ok : Bool) (hwait : e.awaiting = some .auth) :
      Prepares e (.authResult ok) (answered (authAnswered ok e))
  | scramKeysResult (keys : Option ScramStoredKeys) (hwait : e.awaiting = some .scramKeys) :
      Prepares e (.scramKeysResult keys) (answered (keysProvided h keys e))
  | tlsUpgraded (hwait : e.awaiting = some .tls) :
      Prepares e .tlsUpgraded ⟨tlsUpgraded e, [], false⟩

theorem prepares (hp : prepare h c e = some p) : Prepares h e c p := by
  unfold prepare at hp
  split at hp
  case h_1 chunk =>
    cases hp
    exact .feed chunk
  all_goals
    split_ifs at hp with hwait
    cases hp
    constructor
    exact hwait

theorem prepare_effect (hp : prepare h c e = some p) :
    CallEffect e c p.engine := by
  cases prepares hp with
  | feed chunk =>
    unfold prepareFeed
    split_ifs
    · exact .feedLost chunk e.pendingOverflow
    · exact .feedLost chunk true
    · exact .feed chunk
    · exact .feed chunk
  | rcptResult outcome hwait =>
    rcases outcome with err | ⟨⟩
    · exact .rcptError err hwait
    · exact .rcptOk hwait
  | deliveryResult outcome hwait =>
    exact .delivery outcome hwait
  | authResult ok hwait =>
    cases ok
    · exact .auth false e.authenticatedAs hwait
    · exact .auth true e.pendingAuthUser hwait
  | scramKeysResult keys hwait =>
    simp only [answered, keysProvided]
    split
    all_goals first
      | exact .scram keys _ hwait
      | split <;> exact .scram keys _ hwait
  | tlsUpgraded hwait =>
    exact .tls hwait

section Invariant

variable {G : Type} (step : G → Entry → G) (Inv : Engine → G → Prop)

/-- `Inv` relates the engine to a history kept by `step`, and everything that
happens in a run preserves it. -/
structure RunInvariant (h : Host) (o : Options) : Prop where
  onTurn : ∀ e g, running e = true → Inv e g → Inv (turn h o e).after (step g (.pass (turn h o e)))
  onCall : ∀ e g c e₀, CallEffect e c e₀ → Inv e g → Inv e₀ (step g (callEntry c e))
  onOverflow : ∀ e g, Inv e g → Inv { e with pendingOverflow := false, closed := true, buffer := [] } g
  onGuard : ∀ e g acts, Inv e g → Inv (guardErrors e acts).1 g

variable {step Inv}

variable (step Inv) in
/-- The same, with a call taken as its preparation. -/
structure Preserved (h : Host) (o : Options) : Prop where
  onTurn : ∀ e g, running e = true → Inv e g → Inv (turn h o e).after (step g (.pass (turn h o e)))
  onPrepare : ∀ e g c p, prepare h c e = some p → Inv e g → Inv p.engine (step g (callEntry c e))
  onOverflow : ∀ e g, e.awaiting = none → Inv e g →
    Inv { e with pendingOverflow := false, closed := true, buffer := [] } g
  onGuard : ∀ e g acts, Inv e g → Inv (guardErrors e acts).1 g

theorem RunInvariant.preserved (hinv : RunInvariant step Inv h o) : Preserved step Inv h o :=
  ⟨hinv.onTurn, fun e g c p hp => hinv.onCall e g c p.engine (prepare_effect hp),
    fun e g _ => hinv.onOverflow e g, hinv.onGuard⟩

theorem Preserved.loop (hinv : Preserved step Inv h o) {ts : List Turn}
    (hloop : Loop h o e ts e') {g : G} (hg : Inv e g) :
    Inv e' ((ts.map Entry.pass).foldl step g) ∧ ∀ (ts₁ : List Turn) (t : Turn) ts₂, ts = ts₁ ++ t :: ts₂ →
      Inv t.before ((ts₁.map Entry.pass).foldl step g) := by
  induction hloop generalizing g with
  | stop hrun => exact ⟨hg, by simp⟩
  | @leave e hrun hagain =>
    refine ⟨hinv.onTurn e g hrun hg, fun ts₁ t ts₂ hts => ?_⟩
    obtain ⟨rfl, rfl⟩ : ts₁ = [] ∧ turn h o e = t := by
      rcases ts₁ with _ | ⟨x, ts₁⟩ <;> simp_all
    rw [turn_before]
    exact hg
  | @again e e' ts hrun hagain hloop ih =>
    obtain ⟨hlast, hmid⟩ := ih (hinv.onTurn e g hrun hg)
    refine ⟨hlast, fun ts₁ t ts₂ hts => ?_⟩
    cases ts₁ with
    | nil =>
      obtain ⟨rfl, -⟩ := List.cons.inj hts
      rw [turn_before]
      exact hg
    | cons x ts₁ =>
      obtain ⟨rfl, hts'⟩ := List.cons.inj hts
      exact hmid ts₁ t ts₂ hts'

theorem prepare_awaiting (hp : prepare h c e = some p)
    (hloops : p.loops = true) : p.engine.awaiting = none := by
  cases prepares hp with
  | feed chunk =>
    unfold prepareFeed at hloops ⊢
    split_ifs at hloops ⊢ with hclosed hwait
    simpa using hwait
  | rcptResult outcome =>
    rcases outcome with err | ⟨⟩ <;> rfl
  | deliveryResult outcome =>
    rfl
  | authResult ok =>
    cases ok <;> rfl
  | scramKeysResult keys =>
    simp only [answered, keysProvided]
    split
    all_goals first
      | rfl
      | split <;> rfl
  | tlsUpgraded =>
    cases hloops

theorem Preserved.call (hinv : Preserved step Inv h o)
    (hcall : call h o c e = some r) {g : G} (hg : Inv e g) :
    Inv r.engine ((r.turns.map Entry.pass).foldl step (step g (callEntry c e))) ∧
      ∀ (ts₁ : List Turn) (t : Turn) ts₂, r.turns = ts₁ ++ t :: ts₂ →
        Inv t.before ((ts₁.map Entry.pass).foldl step (step g (callEntry c e))) := by
  obtain ⟨p, hp, rfl⟩ := prepared_of_call hcall
  have hg₀ := hinv.onPrepare e g c p hp hg
  unfold Prepared.finish
  split_ifs with hloops
  · cases hover : p.engine.pendingOverflow with
    | true =>
      simp only [resume, pump, hover, if_true]
      exact ⟨hinv.onGuard _ _ _ (hinv.onOverflow _ _ (prepare_awaiting hp hloops) hg₀), by simp⟩
    | false =>
      obtain ⟨hlast, hmid⟩ := hinv.loop (pump_loop hover) hg₀
      exact ⟨hinv.onGuard _ _ _ hlast, hmid⟩
  · exact ⟨hg₀, by simp⟩

theorem Preserved.at_end (hinv : Preserved step Inv h o) (hrun : run h o e cs = some (es, e'))
    {g : G} (hg : Inv e g) :
    Inv e' (es.foldl step g) := by
  induction cs generalizing e es g with
  | nil =>
    obtain ⟨rfl, rfl⟩ := Prod.mk.inj (Option.some.inj hrun)
    exact hg
  | cons c cs ih =>
    obtain ⟨r, rest, hcall, hrest, rfl⟩ := run_cons hrun
    rw [List.foldl_cons, List.foldl_append]
    exact ih hrest (hinv.call hcall hg).1

theorem Preserved.before_pass (hinv : Preserved step Inv h o) (hrun : run h o e cs = some (es, e'))
    {g : G} (hg : Inv e g) :
    ∀ (pre : List Entry) (t : Turn) post, es = pre ++ Entry.pass t :: post → Inv t.before (pre.foldl step g) := by
  induction cs generalizing e es g with
  | nil =>
    obtain ⟨rfl, -⟩ := Prod.mk.inj (Option.some.inj hrun)
    simp
  | cons c cs ih =>
    obtain ⟨r, rest, hcall, hrest, rfl⟩ := run_cons hrun
    obtain ⟨hlast, hmid⟩ := hinv.call hcall hg
    intro pre t post hes
    cases pre with
    | nil => exact absurd (List.cons.inj hes).1 (callEntry_ne_pass c e t)
    | cons x pre =>
      obtain ⟨rfl, hes'⟩ := List.cons.inj hes
      rw [List.foldl_cons]
      rcases append_cons_cases hes' with ⟨m, rfl, hm⟩ | ⟨P, hP, -⟩
      · rw [List.foldl_append]
        exact ih hrest hlast m t post hm
      · obtain ⟨ts₁, ts₂', hr, hts₁, hm'⟩ := List.map_eq_append_iff.mp hP
        obtain ⟨t', ts₂, rfl, ht', -⟩ := List.map_eq_cons_iff.mp hm'
        obtain rfl := Entry.pass.inj ht'
        rw [← hts₁]
        exact hmid ts₁ t' ts₂ hr

end Invariant

theorem turnBdat_consumed (e : Engine) :
    (turnBdat e).consumed = .nothing ∨ ∃ bytes, (turnBdat e).consumed = .chunk bytes := by
  unfold turnBdat
  split_ifs
  · exact .inl rfl
  · exact .inr ⟨_, rfl⟩
  · exact .inr ⟨_, rfl⟩
  · exact .inr ⟨_, rfl⟩

theorem turn_of_command {line : Bytes} (hline : (turn h o e).consumed = .command line) :
    e.authContinuation = none ∧ e.state ≠ .data ∧ e.state ≠ .bdat ∧
      ∃ rest, Lines.cut CR LF e.buffer = some (line, rest) ∧
        turn h o e = ⟨e, (handleCommandLine h o line { e with buffer := rest }).1,
          (handleCommandLine h o line { e with buffer := rest }).2, .command line, true⟩ := by
  have hc : e.authContinuation = none := by
    by_contra hsome
    obtain ⟨cont, hcont⟩ := Option.ne_none_iff_exists'.mp hsome
    rw [turn_auth hcont] at hline
    unfold turnAuth at hline
    split at hline
    · split_ifs at hline
    · cases hline
  have hd : e.state ≠ .data := by
    intro hd
    rw [turn_data hc hd] at hline
    unfold turnData at hline
    split at hline
    · dsimp only at hline
      split_ifs at hline
    · dsimp only at hline
      split_ifs at hline
  have hb : e.state ≠ .bdat := by
    intro hb
    rw [turn_bdat hc hb] at hline
    rcases turnBdat_consumed e with hn | ⟨bytes, hn⟩
    · rw [hn] at hline
      cases hline
    · rw [hn] at hline
      cases hline
  refine ⟨hc, hd, hb, ?_⟩
  rw [turn_command hc hd hb] at hline ⊢
  cases hi : indexOfCRLF e.buffer with
  | none =>
    simp only [turnCommand, hi] at hline
    split_ifs at hline
  | some i =>
    simp only [turnCommand, hi, Consumed.command.injEq] at hline
    subst hline
    exact ⟨_, cut_of_index hi, by simp only [turnCommand, hi]⟩

def splitAtPass (p : Turn → Bool) : List Entry → Option (List Entry × Turn × List Entry)
  | [] => none
  | .pass t :: es =>
    if p t then some ([], t, es)
    else (splitAtPass p es).map fun r => (.pass t :: r.1, r.2)
  | x :: es => (splitAtPass p es).map fun r => (x :: r.1, r.2)

theorem eq_of_splitAtPass {p : Turn → Bool} {es pre post : List Entry}
    (hsplit : splitAtPass p es = some (pre, t, post)) :
    es = pre ++ Entry.pass t :: post ∧ p t = true := by
  have hmap {x : Entry} {es pre : List Entry} {t : Turn} {post : List Entry}
      (ih : ∀ {pre : List Entry}, splitAtPass p es = some (pre, t, post) →
        es = pre ++ Entry.pass t :: post ∧ p t = true)
      (hs : (splitAtPass p es).map (fun r => (x :: r.1, r.2)) = some (pre, t, post)) :
      x :: es = pre ++ Entry.pass t :: post ∧ p t = true := by
    obtain ⟨⟨pre', r⟩, hr, heq⟩ := Option.map_eq_some_iff.mp hs
    obtain ⟨rfl, rfl⟩ := Prod.mk.inj heq
    obtain ⟨hes, hp⟩ := ih hr
    exact ⟨by rw [hes]; rfl, hp⟩
  induction es generalizing pre with
  | nil => cases hsplit
  | cons x es ih =>
    cases x with
    | pass u =>
      simp only [splitAtPass] at hsplit
      split_ifs at hsplit with hp
      · simp only [Option.some.injEq, Prod.mk.injEq] at hsplit
        obtain ⟨rfl, rfl, rfl⟩ := hsplit
        exact ⟨rfl, hp⟩
      · exact hmap ih hsplit
    | fed chunk => exact hmap ih hsplit
    | called c => exact hmap ih hsplit

variable (h o) in
/-- The first pass with `p` of a run, checked by `q`. -/
def checkRun (calls : List Call) (p : Turn → Bool)
    (q : List Entry → Turn → List Entry → Bool) : Bool :=
  match run h o (newEngine false) calls with
  | none => false
  | some (es, _) =>
    match splitAtPass p es with
    | none => false
    | some (pre, t, post) => q pre t post

theorem exists_of_checkRun {calls : List Call} {p : Turn → Bool}
    {q : List Entry → Turn → List Entry → Bool} (hcheck : checkRun h o calls p q = true) :
    ∃ (pre post : List Entry) (t : Turn) (e' : Engine),
      run h o (newEngine false) calls = some (pre ++ Entry.pass t :: post, e') ∧ p t = true ∧
        q pre t post = true := by
  unfold checkRun at hcheck
  cases hrun : run h o (newEngine false) calls with
  | none => simp [hrun] at hcheck
  | some r =>
    obtain ⟨es, e'⟩ := r
    simp only [hrun] at hcheck
    cases hsplit : splitAtPass p es with
    | none => simp [hsplit] at hcheck
    | some s =>
      obtain ⟨pre, t, post⟩ := s
      simp only [hsplit] at hcheck
      obtain ⟨rfl, hp⟩ := eq_of_splitAtPass hsplit
      exact ⟨pre, post, t, e', rfl, hp, hcheck⟩

/-- A host for concrete runs: nothing in them leaves ASCII or reaches SCRAM. -/
def asciiHost : Host :=
  { cases := ⟨id, id⟩, sha256 := id, hmac := fun _ b => b, serverNonce := fun _ => [] }

def bytesOf (s : String) : Bytes := s.toList.map fun c => UInt8.ofNat c.toNat

def openTransaction : List Call :=
  [.feed (bytesOf "EHLO a\r\nMAIL FROM:<b>\r\nRCPT TO:<c>\r\n"), .rcptResult (.ok ())]

end

end Ionosphere.Smtp
