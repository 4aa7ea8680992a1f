import Ionosphere.Smtp.Transaction

/-! Who may ask the backend for what. `Gate` is built from the commands and the answers
alone: whether the client has greeted since the last upgrade, whether the line is TLS,
the user of the exchange in flight and the user signed in. The engine agrees with it in
every run (`GateInv`), and every request it makes is allowed there. -/

namespace Ionosphere.Smtp

open Ionosphere.Js Ionosphere.Core Ionosphere.Lib

variable {e e' : Engine} {outs : List (List SmtpAction)} {tx : Tx} {verb rest : Text} {r : Result}
  {calls : List Call}

variable {acts : List SmtpAction} {c : Call}

section

variable (h : Host) (o : Options)

def outputs (e : Engine) : List Call → Option (List (List SmtpAction) × Engine)
  | [] => some ([], e)
  | c :: cs =>
    match call h o c e with
    | none => none
    | some r => (outputs r.engine cs).map fun p => (r.actions :: p.1, p.2)

variable {h o}

theorem outputs_cons {cs : List Call}
    (houts : outputs h o e (c :: cs) = some (outs, e')) :
    ∃ r rest, call h o c e = some r ∧ outputs h o r.engine cs = some (rest, e') ∧
      outs = r.actions :: rest := by
  simp only [outputs] at houts
  cases hcall : call h o c e with
  | none => simp [hcall] at houts
  | some r =>
    rw [hcall] at houts
    obtain ⟨⟨rest, e₂⟩, hrest, heq⟩ := Option.map_eq_some_iff.mp houts
    obtain ⟨rfl, rfl⟩ := Prod.mk.inj heq
    exact ⟨r, rest, rfl, hrest, rfl⟩

def ContentOnly (e e' : Engine) : Prop :=
  e' = { e with
    buffer := e'.buffer, dataChunks := e'.dataChunks, dataSize := e'.dataSize
    dataOverflow := e'.dataOverflow, bdatRemaining := e'.bdatRemaining }

inductive ContentEffect (e : Engine) : Engine → List SmtpAction → Prop
  | store (e₁ : Engine) (hsame : ContentOnly e e₁) : ContentEffect e e₁ []
  | more (e₁ : Engine) (hsame : ContentOnly e e₁) (text : Text) :
      ContentEffect e { e₁ with state := .rcpt } [.reply text]
  | reject (e₁ : Engine) (hsame : ContentOnly e e₁) (text : Text) :
      ContentEffect e { resetTransaction e₁ with state := .greeted } [.reply text]
  | deliver (e₁ : Engine) (hsame : ContentOnly e e₁) (d : Delivery) (hrcpt : d.rcptTo = e.rcptTo)
      (hauth : d.authenticatedAs = e.authenticatedAs) :
      ContentEffect e { e₁ with dataChunks := [], dataSize := 0, awaiting := some .deliver }
        [.deliver d]

/-- What one pass does: a command, a line of an exchange, bytes that are kept or thrown
away, or content of a message. -/
inductive PassEffect (h : Host) (o : Options) (e : Engine) (t : Turn) : Prop
  | command (line rest : Bytes) (hcont : e.authContinuation = none)
      (hline : t.consumed = .command line)
      (heff : CommandEffect h o (splitVerb h.cases (utf8Decode line)).1
        (splitVerb h.cases (utf8Decode line)).2 { e with buffer := rest } t.after t.actions)
  | exchange (rest : Bytes) (hcont : e.authContinuation ≠ none)
      (hline : ∀ line, t.consumed ≠ .command line)
      (hex : Exchange { e with buffer := rest } t.after t.actions)
  | idle (rest : Bytes) (hafter : t.after = { e with buffer := rest })
      (hline : ∀ line, t.consumed ≠ .command line) (hquiet : Quiet t.actions)
  | content (hstate : e.state = .data ∨ e.state = .bdat)
      (hline : ∀ line, t.consumed ≠ .command line) (heff : ContentEffect e t.after t.actions)

theorem finishData_content {e e₁ : Engine} (hsame : ContentOnly e e₁)
    (hstate : e.state = .data ∨ e.state = .bdat) :
    ContentEffect e (finishData e₁).1 (finishData e₁).2 := by
  have hs : e₁.state = e.state := by rw [hsame]
  unfold finishData
  split_ifs
  · have hreset : resetTransaction e₁ = { resetTransaction e₁ with state := .greeted } := by
      have hne : e₁.state ≠ .init := by
        rw [hs]
        rcases hstate with h | h <;> simp [h]
      simp [resetTransaction, hne]
    rw [hreset]
    exact .reject e₁ hsame _
  · refine .deliver e₁ hsame _ ?_ ?_
    · change e₁.rcptTo = e.rcptTo
      rw [hsame]
    · change e₁.authenticatedAs = e.authenticatedAs
      rw [hsame]

theorem turnData_content (hstate : e.state = .data) :
    ContentEffect e (turnData o e).after (turnData o e).actions ∧
      ∀ line, (turnData o e).consumed ≠ .command line := by
  unfold turnData
  cases indexOfCRLF e.buffer with
  | none =>
    refine ⟨.store _ ?_, fun line => ?_⟩
    · unfold guardDataBuffer
      split_ifs <;> rfl
    · dsimp only
      split_ifs <;> simp
  | some i =>
    dsimp only
    split_ifs
    · exact ⟨finishData_content rfl (.inl hstate), fun line => by simp⟩
    · refine ⟨.store _ ?_, fun line => by simp⟩
      unfold storeDataLine
      split_ifs
      · rfl
      · dsimp only
        split_ifs <;> rfl

theorem finishChunk_content {e e₁ : Engine} (hsame : ContentOnly e e₁) (hstate : e.state = .bdat) :
    ContentEffect e (finishChunk e₁).1 (finishChunk e₁).2 := by
  unfold finishChunk
  split_ifs
  · exact .reject e₁ hsame _
  · exact .more e₁ hsame _
  · exact finishData_content hsame (.inr hstate)

theorem turnBdat_content (hstate : e.state = .bdat) :
    ContentEffect e (turnBdat e).after (turnBdat e).actions ∧
      ∀ line, (turnBdat e).consumed ≠ .command line := by
  have htake : ContentOnly e (takeChunk e) := rfl
  unfold turnBdat
  split_ifs
  · exact ⟨.store e rfl, by simp⟩
  · exact ⟨.store _ htake, by simp⟩
  · exact ⟨finishChunk_content htake hstate, by simp⟩
  · exact ⟨finishChunk_content rfl hstate, by simp⟩

theorem turn_effect (e : Engine) : PassEffect h o e (turn h o e) := by
  cases hc : e.authContinuation with
  | some cont =>
    rw [turn_auth hc]
    unfold turnAuth
    cases indexOfCRLF e.buffer with
    | none =>
      dsimp only
      split_ifs
      · exact .exchange [] (by simp [hc]) (by simp) (.challenge { e with buffer := [] } none _)
      · exact .idle e.buffer rfl (by simp) (by simp [Quiet])
    | some i =>
      exact .exchange (e.buffer.drop (i + 2)) (by simp [hc]) (by simp)
        (handleAuthContinuationLine_exchange cont _ _)
  | none =>
    by_cases hd : e.state = .data
    · rw [turn_data hc hd]
      exact .content (.inl hd) (turnData_content hd).2 (turnData_content hd).1
    by_cases hb : e.state = .bdat
    · rw [turn_bdat hc hb]
      exact .content (.inr hb) (turnBdat_content hb).2 (turnBdat_content hb).1
    · rw [turn_command hc hd hb]
      unfold turnCommand
      cases indexOfCRLF e.buffer with
      | none =>
        dsimp only
        split_ifs
        · exact .idle [] rfl (by simp) (quiet_reply _)
        · exact .idle e.buffer rfl (by simp) (by simp [Quiet])
      | some i =>
        exact .command (e.buffer.take i) (e.buffer.drop (i + 2)) hc rfl
          (handleCommandLine_effect _ _)

/-- What the adapter and the client have agreed on: `asked` is the user of the
authentication request in flight, `user` the one signed in. -/
structure Gate where
  tls : Bool
  greeted : Bool := false
  asked : Option Text := none
  user : Option Text := none
  rcpts : Nat := 0

variable {g : Gate}

def SmtpAction.isRcpt : SmtpAction → Bool
  | .rcpt _ => true
  | _ => false

namespace Gate

def greets (h : Host) (t : Turn) : Bool :=
  match t.consumed with
  | .command line =>
    let verb := (splitVerb h.cases (utf8Decode line)).1
    repliesWith '2' t.actions && (decide (verb = "EHLO".toList) || decide (verb = "HELO".toList))
  | _ => false

def onEntry (h : Host) (g : Gate) : Entry → Gate
  | .pass t =>
    { g with
      greeted := g.greeted || greets h t
      asked := (t.actions.findSome? SmtpAction.asksFor).or g.asked
      rcpts := g.rcpts + t.actions.countP SmtpAction.isRcpt }
  | .called (.authResult ok) => { g with user := if ok then g.asked else g.user, asked := none }
  | .called .tlsUpgraded => { tls := true, rcpts := g.rcpts }
  | _ => g

def after (h : Host) (implicitTls : Bool) (es : List Entry) : Gate :=
  es.foldl (onEntry h) { tls := implicitTls }

end Gate

/-- The engine agrees with the history `g`, and its state shows what it took to get there. -/
structure GateInv (o : Options) (e : Engine) (g : Gate) : Prop where
  tls : e.isTls = g.tls
  user : e.authenticatedAs = g.user
  asked : e.pendingAuthUser = g.asked
  asking : e.awaiting = some .auth → e.pendingAuthUser ≠ none
  lookup : e.awaiting = some .scramKeys → ∃ session, e.authContinuation = some (.scramKeys session)
  exchange : e.authContinuation ≠ none → authAllowed o e = true
  greeted : e.state ≠ .init → g.greeted = true
  signed : o.profile = .submission → e.state ≠ .init → e.state ≠ .greeted → e.authenticatedAs ≠ none
  accepted : e.state = .rcpt ∨ e.state = .data ∨ e.state = .bdat → e.rcptTo ≠ []
  answering : e.awaiting = some .rcpt → e.state = .mail ∨ e.state = .rcpt
  upgraded : e.isTls = true → e.awaiting ≠ some .tls
  counted : e.rcptCount = g.rcpts
  bounded : g.rcpts ≤ maxRcptPerSession

theorem GateInv.inTransaction (hinv : GateInv o e g)
    (hwait : e.awaiting = some .rcpt) : e.state ≠ .init := by
  rcases hinv.answering hwait with hs | hs <;> simp [hs]

theorem gateInv_new (implicitTls : Bool) :
    GateInv o (newEngine implicitTls) { tls := implicitTls } := by
  have hzero : 0 ≤ maxRcptPerSession := Nat.zero_le _
  cases implicitTls <;> constructor <;> simp [newEngine, tlsUpgraded]

theorem Quiet.asksFor (hquiet : Quiet acts) :
    acts.findSome? SmtpAction.asksFor = none := by
  refine List.findSome?_eq_none_iff.mpr fun a ha => ?_
  have hreport := hquiet a ha
  cases a <;> simp_all [SmtpAction.asksFor, SmtpAction.isReport]

theorem Quiet.countP (hquiet : Quiet acts) :
    acts.countP SmtpAction.isRcpt = 0 := by
  refine List.countP_eq_zero.mpr fun a ha => ?_
  have hreport := hquiet a ha
  cases a <;> simp_all [SmtpAction.isRcpt, SmtpAction.isReport]

def Gate.acted (g : Gate) (acts : List SmtpAction) : Gate :=
  { g with
    asked := (acts.findSome? SmtpAction.asksFor).or g.asked
    rcpts := g.rcpts + acts.countP SmtpAction.isRcpt }

theorem Gate.acted_quiet (g : Gate) (hquiet : Quiet acts) :
    g.acted acts = g := by
  simp only [Gate.acted, hquiet.asksFor, hquiet.countP, Option.none_or, Nat.add_zero]

theorem Gate.onEntry_pass {t : Turn} (g : Gate) (hline : ∀ line, t.consumed ≠ .command line) :
    g.onEntry h (.pass t) = g.acted t.actions := by
  have hgreets : Gate.greets h t = false := by
    unfold Gate.greets
    split
    next line hl => exact absurd hl (hline line)
    · rfl
  simp only [Gate.onEntry, hgreets, Bool.or_false, Gate.acted]

section

variable (hinv : GateInv o e g)

include hinv

theorem GateInv.setBuffer (b : Bytes) :
    GateInv o { e with buffer := b } g := { hinv with }

theorem GateInv.exchanged (hwait : e.awaiting = none) (hallowed : authAllowed o e = true)
    (hex : Exchange e e' acts) : GateInv o e' (g.acted acts) := by
  have hrcpt : e.awaiting ≠ some .rcpt := by simp [hwait]
  cases hex with
  | talk c acts hquiet =>
    rw [Gate.acted_quiet g hquiet]
    have hnot : e.awaiting ≠ some .scramKeys := by simp [hwait]
    exact { hinv with exchange := fun _ => hallowed, lookup := fun hw => absurd hw hnot }
  | ask c user a ha =>
    have hcount : [a].countP SmtpAction.isRcpt = 0 := by
      cases a <;> simp_all [SmtpAction.asksFor, SmtpAction.isRcpt]
    have hacted : g.acted [a] = { g with asked := some user } := by
      simp only [Gate.acted, List.findSome?_cons, ha, Option.some_or, hcount, Nat.add_zero]
    rw [hacted]
    exact { hinv with
      asked := rfl, asking := by simp, lookup := by simp, exchange := fun _ => hallowed
      answering := by simp, upgraded := by simp }
  | lookup session user =>
    have hacted : g.acted [.scramKeys user] = g := by
      simp [Gate.acted, SmtpAction.asksFor, SmtpAction.isRcpt]
    rw [hacted]
    exact { hinv with
      asking := by simp, lookup := fun _ => ⟨session, rfl⟩, exchange := fun _ => hallowed
      answering := by simp, upgraded := by simp }

theorem GateInv.content (hstate : e.state = .data ∨ e.state = .bdat)
    (heff : ContentEffect e e' acts) : GateInv o e' (g.acted acts) := by
  have hgreeted : g.greeted = true := hinv.greeted (by rcases hstate with hs | hs <;> simp [hs])
  have hrcpt : e.rcptTo ≠ [] := hinv.accepted (.inr hstate)
  have hsigned : o.profile = .submission → e.authenticatedAs ≠ none := fun hp =>
    hinv.signed hp (by rcases hstate with hs | hs <;> simp [hs])
      (by rcases hstate with hs | hs <;> simp [hs])
  cases heff with
  | store e₁ hsame =>
    rw [Gate.acted_quiet g (by simp [Quiet]), hsame]
    exact { hinv with }
  | more e₁ hsame text =>
    rw [Gate.acted_quiet g (quiet_reply text), hsame]
    exact { hinv with
      greeted := fun _ => hgreeted, signed := fun hp _ _ => hsigned hp, accepted := fun _ => hrcpt
      answering := fun _ => .inr rfl }
  | reject e₁ hsame text =>
    rw [Gate.acted_quiet g (quiet_reply text), hsame]
    exact { hinv with
      greeted := fun _ => hgreeted, signed := fun _ _ hg => absurd rfl hg, accepted := by simp
      answering := fun hw => by
        have := hinv.answering hw
        rcases hstate with hs | hs <;> simp [hs] at this }
  | deliver e₁ hsame d =>
    have hacted : g.acted [.deliver d] = g := by
      simp [Gate.acted, SmtpAction.asksFor, SmtpAction.isRcpt]
    rw [hacted, hsame]
    exact { hinv with asking := by simp, lookup := by simp, answering := by simp, upgraded := by simp }

theorem GateInv.reset
    (hwait : e.awaiting ≠ some .rcpt) : GateInv o (resetTransaction e) g := by
  have hstate : (resetTransaction e).state = .init ∨ (resetTransaction e).state = .greeted := by
    simp only [resetTransaction]
    split_ifs <;> simp
  refine { hinv with
    greeted := fun hs => hinv.greeted fun hi => hs (by simp [resetTransaction, hi])
    signed := fun _ hi hg => ?_, accepted := fun hs => ?_, answering := fun hw => absurd hw hwait }
  · exact absurd hstate (by simp [hi, hg])
  · rcases hstate with h' | h' <;> simp [h'] at hs

/-- `b` says whether the command was an accepted greeting. -/
theorem GateInv.command {b : Bool} (hwait : e.awaiting = none)
    (hb : repliesWith '2' acts = true → verb = "EHLO".toList ∨ verb = "HELO".toList → b = true)
    (heff : CommandEffect h o verb rest e e' acts) :
    GateInv o e' { g.acted acts with greeted := g.greeted || b } := by
  have hrcpt : e.awaiting ≠ some .rcpt := by simp [hwait]
  have hgrow {e' : Engine} {g' : Gate} (hnext : GateInv o e' g') (hg : g'.greeted = g.greeted) :
      GateInv o e' { g' with greeted := g.greeted || b } :=
    { hnext with greeted := fun hs => by simp [← hg, hnext.greeted hs] }
  have hquiet {e' : Engine} {acts : List SmtpAction} (hq : Quiet acts) (hnext : GateInv o e' g) :
      GateInv o e' { g.acted acts with greeted := g.greeted || b } := by
    rw [Gate.acted_quiet g hq]
    exact hgrow hnext rfl
  have hlast {e' : Engine} {text : Text} {a : SmtpAction} (ha : a = .close ∨ a = .startTls)
      (hnext : GateInv o e' g) :
      GateInv o e' { g.acted [.reply text, a] with greeted := g.greeted || b } := by
    have hacted : g.acted [.reply text, a] = g := by
      rcases ha with rfl | rfl <;> rfl
    rw [hacted]
    exact hgrow hnext rfl
  cases heff with
  | greet acts hv hacts =>
    have hq : Quiet acts := by
      unfold repliesWith at hacts
      split at hacts
      · exact quiet_reply _
      · cases hacts
    rw [Gate.acted_quiet g hq]
    exact { hinv.reset hrcpt with
      greeted := fun _ => by simp [hb hacts hv]
      signed := fun _ _ hg => absurd rfl hg, accepted := by simp
      answering := fun hw => absurd hw hrcpt }
  | mail parsed hv hstate hparse hauth =>
    refine hquiet (quiet_reply _) ?_
    exact { hinv with
      greeted := fun _ => hinv.greeted (by simp [hstate]), signed := fun hp _ _ => hauth hp
      accepted := by simp, answering := fun hw => absurd hw hrcpt }
  | rcpt v hv hstate hparse hcount =>
    have hacted : g.acted [.rcpt v.address] = { g with rcpts := g.rcpts + 1 } := by
      simp [Gate.acted, SmtpAction.asksFor, SmtpAction.isRcpt]
    rw [hacted]
    have hnext : GateInv o
        { e with
          rcptCount := e.rcptCount + 1
          pendingRcptAddress := some v.address
          rcptDsn := recordDsn v e.rcptDsn
          awaiting := some .rcpt } { g with rcpts := g.rcpts + 1 } :=
      { hinv with
        asking := by simp, lookup := by simp, answering := fun _ => hstate, upgraded := by simp
        counted := congrArg (· + 1) hinv.counted, bounded := hinv.counted ▸ hcount }
    exact hgrow hnext rfl
  | data hv hstate =>
    refine hquiet (quiet_reply _) ?_
    exact { hinv with
      greeted := fun _ => hinv.greeted (by simp [hstate])
      signed := fun hp _ _ => hinv.signed hp (by simp [hstate]) (by simp [hstate])
      accepted := fun _ => hinv.accepted (.inl hstate), answering := fun hw => absurd hw hrcpt }
  | bdat digits last n hv hstate hparse hn =>
    refine hquiet (by simp [Quiet]) ?_
    have hs : e.state ≠ .init ∧ e.state ≠ .greeted := by rcases hstate with hs | hs <;> simp [hs]
    exact { hinv with
      greeted := fun _ => hinv.greeted hs.1, signed := fun hp _ _ => hinv.signed hp hs.1 hs.2
      accepted := fun _ => hinv.accepted (hstate.imp_right .inr)
      answering := fun hw => absurd hw hrcpt }
  | reset hv => exact hquiet (quiet_reply _) (hinv.reset hrcpt)
  | quit => exact hlast (.inl rfl) { hinv with }
  | startTls htls =>
    refine hlast (.inr rfl) ?_
    exact { hinv with
      asking := by simp, lookup := by simp, answering := by simp
      upgraded := fun ht => by simp [htls] at ht }
  | aside e' acts hsame haside hacts hdata hallowed =>
    obtain ⟨hex, hok | ⟨rfl, hq⟩⟩ := hallowed
    · exact hgrow (hinv.exchanged hwait hok hex) rfl
    · exact hquiet hq hinv

theorem gateInv_turn (hwait : e.awaiting = none) :
    GateInv o (turn h o e).after (g.onEntry h (.pass (turn h o e))) := by
  cases turn_effect (h := h) (o := o) e with
  | command line rest hcont hline heff =>
    refine (hinv.setBuffer rest).command hwait (fun h2 hv => ?_) heff
    simp only [Gate.greets, hline, h2, Bool.true_and, Bool.or_eq_true, decide_eq_true_eq]
    exact hv
  | exchange rest hcont hline hex =>
    rw [Gate.onEntry_pass g hline]
    exact (hinv.setBuffer rest).exchanged hwait (hinv.exchange hcont) hex
  | idle rest hafter hline hquiet =>
    rw [Gate.onEntry_pass g hline, Gate.acted_quiet g hquiet, hafter]
    exact hinv.setBuffer rest
  | content hstate hline heff =>
    rw [Gate.onEntry_pass g hline]
    exact hinv.content hstate heff

theorem gateInv_prepare {p : Prepared}
    (hp : prepare h c e = some p) :
    GateInv o p.engine (g.onEntry h (callEntry c e)) := by
  cases prepares hp with
  | feed chunk =>
    have hentry : g.onEntry h (callEntry (.feed chunk) e) = g := by
      simp only [callEntry]
      split_ifs <;> rfl
    rw [hentry]
    unfold prepareFeed
    split_ifs <;> exact { hinv with }
  | rcptResult outcome hwait =>
    have hstate := hinv.answering hwait
    have hs : e.state ≠ .init ∧ e.state ≠ .greeted := by rcases hstate with hs | hs <;> simp [hs]
    rcases outcome with err | ⟨⟩
    · exact { hinv with
        asking := by simp [answered, rcptAnswered], lookup := by simp [answered, rcptAnswered]
        answering := by simp [answered, rcptAnswered], upgraded := by simp [answered, rcptAnswered] }
    · exact { hinv with
        asking := by simp [answered, rcptAnswered], lookup := by simp [answered, rcptAnswered]
        greeted := fun _ => hinv.greeted hs.1, signed := fun hp _ _ => hinv.signed hp hs.1 hs.2
        accepted := fun _ => by simp [answered, rcptAnswered]
        answering := by simp [answered, rcptAnswered], upgraded := by simp [answered, rcptAnswered] }
  | deliveryResult outcome hwait =>
    have hdone : GateInv o { e with awaiting := none } g :=
      { hinv with asking := by simp, lookup := by simp, answering := by simp, upgraded := by simp }
    exact hdone.reset (by simp)
  | authResult ok hwait =>
    cases ok with
    | false =>
      exact { hinv with
        asked := rfl, asking := by simp [answered, authAnswered]
        lookup := by simp [answered, authAnswered], answering := by simp [answered, authAnswered]
        upgraded := by simp [answered, authAnswered] }
    | true =>
      exact { hinv with
        user := hinv.asked, asked := rfl, asking := by simp [answered, authAnswered]
        lookup := by simp [answered, authAnswered]
        signed := fun _ _ _ => hinv.asking hwait
        answering := by simp [answered, authAnswered], upgraded := by simp [answered, authAnswered] }
  | scramKeysResult keys hwait =>
    obtain ⟨session, hcont⟩ := hinv.lookup hwait
    have hallowed : authAllowed o e = true := hinv.exchange (by simp [hcont])
    simp only [answered, keysProvided, hcont]
    split
    · exact { hinv with
        asking := by simp, lookup := by simp, exchange := fun _ => hallowed, answering := by simp, upgraded := by simp }
    · exact { hinv with
        asking := by simp [scramRejected], lookup := by simp [scramRejected]
        exchange := fun _ => hallowed, answering := by simp [scramRejected]
        upgraded := by simp [scramRejected] }
  | tlsUpgraded hwait =>
    exact { hinv with
      tls := rfl, user := rfl, asked := rfl, asking := by simp [tlsUpgraded]
      lookup := by simp [tlsUpgraded], exchange := by simp [tlsUpgraded]
      greeted := by simp [tlsUpgraded], signed := by simp [tlsUpgraded]
      accepted := by simp [tlsUpgraded], answering := by simp [tlsUpgraded]
      upgraded := by simp [tlsUpgraded] }

end

theorem tls_onEntry (x : Entry) (htls : g.tls = true) : (g.onEntry h x).tls = true := by
  cases x with
  | fed chunk => exact htls
  | pass t => exact htls
  | called c => cases c <;> first | exact htls | rfl

theorem tls_foldl (es : List Entry) (htls : g.tls = true) :
    (es.foldl (Gate.onEntry h) g).tls = true := by
  induction es generalizing g with
  | nil => exact htls
  | cons x es ih => exact ih (tls_onEntry x htls)

theorem gateInv_run : Preserved (Gate.onEntry h) (GateInv o) h o where
  onTurn e g hrun hinv := gateInv_turn hinv (running_iff.mp hrun).1
  onPrepare e g c p hp hinv := gateInv_prepare hinv hp
  onOverflow e g _ hinv := { hinv with }
  onGuard e g acts hinv := by
    rcases guardErrors_cases e acts with hg | ⟨n, hg⟩ | ⟨n, hg⟩
    · rw [hg]
      exact hinv
    · rw [hg]
      exact { hinv with }
    · rw [hg]
      exact { hinv with }

def Entry.actions : Entry → List SmtpAction
  | .pass t => t.actions
  | _ => []

/-- What must hold for an action to be returned, given the history and the transaction
before it. -/
def Gated (o : Options) (g : Gate) (tx : Tx) : SmtpAction → Prop
  | .deliver d =>
    g.greeted = true ∧ tx.mail ≠ none ∧ tx.recipients ≠ [] ∧ d.rcptTo = tx.recipients ∧
      d.authenticatedAs = g.user ∧ (o.profile = .submission → g.user ≠ none)
  | .auth _ _ => o.authOffered = true ∧ (g.tls = true ∨ o.allowInsecureAuth = true)
  | .scramKeys _ => o.authOffered = true ∧ (g.tls = true ∨ o.allowInsecureAuth = true)
  | .authVerified _ => o.authOffered = true ∧ (g.tls = true ∨ o.allowInsecureAuth = true)
  | _ => True

theorem Quiet.gated (hquiet : Quiet acts) (g : Gate) (tx : Tx) :
    ∀ a ∈ acts, Gated o g tx a := by
  intro a ha
  have hreport := hquiet a ha
  cases a <;> first
    | exact trivial
    | cases hreport

theorem GateInv.allowed (hinv : GateInv o e g)
    (hallowed : authAllowed o e = true) :
    o.authOffered = true ∧ (g.tls = true ∨ o.allowInsecureAuth = true) := by
  simp only [authAllowed, Bool.and_eq_true, Bool.or_eq_true, hinv.tls] at hallowed
  exact hallowed

theorem Exchange.gated (hex : Exchange e e' acts) (hinv : GateInv o e g)
    (hallowed : authAllowed o e = true) :
    ∀ a ∈ acts, Gated o g tx a := by
  cases hex with
  | talk c acts hquiet => exact hquiet.gated g tx
  | ask c user a ha =>
    intro b hb
    obtain rfl := List.mem_singleton.mp hb
    cases b <;> first
      | exact hinv.allowed hallowed
      | cases ha
  | lookup session user =>
    intro b hb
    obtain rfl := List.mem_singleton.mp hb
    exact hinv.allowed hallowed

theorem CommandEffect.gated (heff : CommandEffect h o verb rest e e' acts)
    (hinv : GateInv o e g) : ∀ a ∈ acts, Gated o g tx a := by
  cases heff with
  | greet acts hv hacts =>
    unfold repliesWith at hacts
    split at hacts
    · exact (quiet_reply _).gated g tx
    · cases hacts
  | aside e' acts hsame haside hacts hdata hallowed =>
    obtain ⟨hex, hok | ⟨-, hquiet⟩⟩ := hallowed
    · exact hex.gated hinv hok
    · exact hquiet.gated g tx
  | _ => simp [Gated, reply, rawReply]

theorem ContentEffect.gated (heff : ContentEffect e e' acts)
    (hstate : e.state = .data ∨ e.state = .bdat)
    (hinv : GateInv o e g) (htx : TxInv e tx) : ∀ a ∈ acts, Gated o g tx a := by
  cases heff with
  | deliver e₁ hsame d hrcpt hauth =>
    have hs : e.state ≠ .init ∧ e.state ≠ .greeted := by rcases hstate with hs | hs <;> simp [hs]
    have hopen := htx.opened hs.1 hs.2
    obtain ⟨p, hp, -⟩ := hopen.mail
    intro a ha
    obtain rfl := List.mem_singleton.mp ha
    refine ⟨hinv.greeted hs.1, by simp [hp], ?_, hrcpt.trans hopen.rcptTo, hauth.trans hinv.user, ?_⟩
    · rw [← hopen.rcptTo]
      exact hinv.accepted (.inr hstate)
    · rw [← hinv.user]
      exact fun hp => hinv.signed hp hs.1 hs.2
  | store => simp
  | more e₁ hsame text => exact (quiet_reply text).gated g tx
  | reject e₁ hsame text => exact (quiet_reply text).gated g tx

theorem turn_gated (hinv : GateInv o e g) (htx : TxInv e tx) :
    ∀ a ∈ (turn h o e).actions, Gated o g tx a := by
  cases turn_effect (h := h) (o := o) e with
  | command line rest hcont hline heff => exact heff.gated (hinv.setBuffer rest)
  | exchange rest hcont hline hex => exact hex.gated (hinv.setBuffer rest) (hinv.exchange hcont)
  | idle rest hafter hline hquiet => exact hquiet.gated g tx
  | content hstate hline heff => exact heff.gated hstate hinv htx

theorem Quiet.filter (hquiet : Quiet acts) :
    acts.filter SmtpAction.asksBackend = [] := by
  refine List.filter_eq_nil_iff.mpr fun a ha => ?_
  have hreport := hquiet a ha
  cases a <;> simp_all [SmtpAction.asksBackend, SmtpAction.isReport]

theorem guardErrors_requests (e : Engine) (acts : List SmtpAction) :
    (guardErrors e acts).2.filter SmtpAction.asksBackend = acts.filter SmtpAction.asksBackend := by
  unfold guardErrors
  split_ifs
  · rfl
  · dsimp only
    split_ifs
    · rfl
    · simp [reply, SmtpAction.asksBackend]

theorem prepare_quiet {p : Prepared} (hp : prepare h c e = some p) :
    Quiet p.actions := by
  have hnil : Quiet [] := by simp [Quiet]
  cases prepares hp with
  | feed chunk =>
    unfold prepareFeed
    split_ifs <;> exact hnil
  | rcptResult outcome =>
    rcases outcome with err | ⟨⟩ <;> exact quiet_reply _
  | deliveryResult outcome =>
    rcases outcome with err | ⟨_ | queuedId⟩ <;> exact quiet_reply _
  | authResult ok =>
    cases ok <;> exact quiet_reply _
  | scramKeysResult keys =>
    have hrejected (step : ScramStep) (e : Engine) : Quiet (scramRejected step e).2 := by
      cases step <;> simp [Quiet, scramRejected, scramFailedAction, credentialsInvalid, reply,
        SmtpAction.isReport]
    simp only [answered, keysProvided]
    split
    case h_4 => exact hnil
    all_goals
      split
      · exact quiet_reply _
      · exact hrejected _ _
  | tlsUpgraded =>
    exact hnil

theorem call_requests (hcall : call h o c e = some r) :
    r.actions.filter SmtpAction.asksBackend =
      (r.turns.flatMap Turn.actions).filter SmtpAction.asksBackend := by
  obtain ⟨p, hp, rfl⟩ := prepared_of_call hcall
  have hquiet := (prepare_quiet hp).filter
  unfold Prepared.finish
  split_ifs
  · simp only [resume, guardErrors_requests, List.filter_append, hquiet, List.nil_append]
    unfold pump
    split_ifs
    · simp [reply, SmtpAction.asksBackend]
    · rfl
  · exact hquiet

theorem outputs_of_run {es : List Entry}
    (hrun : run h o e calls = some (es, e')) :
    ∃ outs, outputs h o e calls = some (outs, e') ∧
      outs.flatten.filter SmtpAction.asksBackend =
        (es.flatMap Entry.actions).filter SmtpAction.asksBackend := by
  induction calls generalizing e es with
  | nil =>
    obtain ⟨rfl, rfl⟩ := Prod.mk.inj (Option.some.inj hrun)
    exact ⟨[], rfl, rfl⟩
  | cons c cs ih =>
    obtain ⟨r, rest, hcall, hrest, rfl⟩ := run_cons hrun
    obtain ⟨outs, houts, hsame⟩ := ih hrest
    have hentry : (callEntry c e).actions = [] := by
      cases c with
      | feed chunk =>
        simp only [callEntry]
        split_ifs <;> rfl
      | _ => rfl
    have hturns : (r.turns.map Entry.pass).flatMap Entry.actions = r.turns.flatMap Turn.actions := by
      rw [List.flatMap_map]
      rfl
    refine ⟨r.actions :: outs, by simp [outputs, hcall, houts], ?_⟩
    rw [List.flatten_cons, List.filter_append, call_requests hcall, hsame, List.flatMap_cons, hentry,
      List.nil_append, List.flatMap_append, hturns, List.filter_append]

theorem rcpts_foldl (es : List Entry) (g : Gate) :
    (es.foldl (Gate.onEntry h) g).rcpts =
      g.rcpts + (es.flatMap Entry.actions).countP SmtpAction.isRcpt := by
  induction es generalizing g with
  | nil => rfl
  | cons x es ih =>
    have hone : (g.onEntry h x).rcpts = g.rcpts + x.actions.countP SmtpAction.isRcpt := by
      cases x with
      | fed chunk => rfl
      | called c => cases c <;> rfl
      | pass t => rfl
    rw [List.foldl_cons, ih, hone, List.flatMap_cons, List.countP_append, Nat.add_assoc]

theorem countP_requests (acts : List SmtpAction) :
    (acts.filter SmtpAction.asksBackend).countP SmtpAction.isRcpt =
      acts.countP SmtpAction.isRcpt := by
  rw [List.countP_filter]
  refine List.countP_congr fun a _ => ?_
  cases a <;> simp [SmtpAction.isRcpt, SmtpAction.asksBackend]

/-- In every run, every request to the backend is made by a pass that was allowed to
make it: a delivery only of an open transaction with an accepted recipient, after a
greeting, and on the submission profile by a user who signed in; an authentication
request only where AUTH is offered on this line. The user is the one whose exchange
`authResult` confirmed, and recipients are limited over the whole session. -/
theorem requests_gated {implicitTls : Bool} {calls : List Call} {es : List Entry} {e' : Engine}
    (hrun : run h o (newEngine implicitTls) calls = some (es, e')) :
    ∃ outs, outputs h o (newEngine implicitTls) calls = some (outs, e') ∧
      outs.flatten.filter SmtpAction.asksBackend =
        (es.flatMap Entry.actions).filter SmtpAction.asksBackend ∧
      (∀ pre t post, es = pre ++ Entry.pass t :: post → ∀ a ∈ t.actions,
        Gated o (Gate.after h implicitTls pre) (Tx.after h pre) a) ∧
      e'.authenticatedAs = (Gate.after h implicitTls es).user ∧
      outs.flatten.countP SmtpAction.isRcpt ≤ maxRcptPerSession := by
  obtain ⟨outs, houts, hsame⟩ := outputs_of_run hrun
  have hend := gateInv_run.at_end hrun (gateInv_new implicitTls)
  refine ⟨outs, houts, hsame, fun pre t post hes => ?_, hend.user, ?_⟩
  · have hgate := gateInv_run.before_pass hrun (gateInv_new implicitTls) pre t post hes
    have htx := txInv_run.preserved.before_pass hrun (txInv_new implicitTls) pre t post hes
    obtain ⟨⟨-, -, hturn⟩, -⟩ := run_at_pass hrun hes
    rw [hturn]
    exact turn_gated hgate htx
  · have hcount := rcpts_foldl (h := h) es { tls := implicitTls }
    have hbound := hend.bounded
    rw [← countP_requests, hsame, countP_requests]
    omega

theorem Quiet.not_close (hquiet : Quiet acts) : .close ∉ acts := by
  intro hmem
  have hreport := hquiet _ hmem
  cases hreport

theorem Exchange.not_close (hex : Exchange e e' acts) :
    .close ∉ acts := by
  cases hex with
  | talk c acts hquiet => exact hquiet.not_close
  | ask c user a ha =>
    intro hmem
    rw [← List.mem_singleton.mp hmem] at ha
    cases ha
  | lookup session user => simp

theorem CommandEffect.closes (heff : CommandEffect h o verb rest e e' acts)
    (hclose : SmtpAction.close ∈ acts) : e'.closed = true := by
  cases heff with
  | quit => rfl
  | greet acts hv hacts =>
    unfold repliesWith at hacts
    split at hacts
    · exact absurd hclose (quiet_reply _).not_close
    · cases hacts
  | aside e' acts hsame haside hacts hdata hallowed =>
    exact absurd hclose hallowed.1.not_close
  | _ => simp [reply, rawReply] at hclose

theorem turn_closes (hclose : SmtpAction.close ∈ (turn h o e).actions) :
    (turn h o e).after.closed = true := by
  cases turn_effect (h := h) (o := o) e with
  | command line rest hcont hline heff => exact heff.closes hclose
  | exchange rest hcont hline hex => exact absurd hclose hex.not_close
  | idle rest hafter hline hquiet => exact absurd hclose hquiet.not_close
  | content hstate hline heff =>
    generalize (turn h o e).actions = acts at hclose heff
    generalize (turn h o e).after = e' at heff
    cases heff with
    | more e₁ hsame text => exact absurd hclose (quiet_reply text).not_close
    | reject e₁ hsame text => exact absurd hclose (quiet_reply text).not_close
    | _ => simp at hclose

theorem loop_closes {ts : List Turn} (hloop : Loop h o e ts e')
    (hclose : SmtpAction.close ∈ ts.flatMap Turn.actions) : e'.closed = true := by
  induction hloop with
  | stop hrun => simp at hclose
  | leave hrun hagain => exact turn_closes (by simpa using hclose)
  | again hrun hagain hloop ih =>
    rw [List.flatMap_cons, List.mem_append] at hclose
    rcases hclose with hnow | hlater
    · have hclosed := turn_closes hnow
      cases hloop with
      | stop _ => exact hclosed
      | leave hrun' _ => simp [running, hclosed] at hrun'
      | again hrun' _ _ => simp [running, hclosed] at hrun'
    · exact ih hlater

theorem guardErrors_closes (hacts : SmtpAction.close ∈ acts → e.closed = true)
    (hclose : SmtpAction.close ∈ (guardErrors e acts).2) :
    (guardErrors e acts).1.closed = true := by
  unfold guardErrors at hclose ⊢
  split_ifs at hclose ⊢ with hclosed
  · exact hclosed
  · dsimp only at hclose ⊢
    split_ifs at hclose ⊢
    · exact hacts hclose
    · rfl

theorem loop_pendingOverflow {e₁ : Engine} {ts : List Turn} (hloop : Loop h o e ts e₁) :
    e₁.pendingOverflow = e.pendingOverflow := by
  induction hloop with
  | stop _ => rfl
  | leave _ _ => exact turn_pendingOverflow _
  | again _ _ _ ih => exact ih.trans (turn_pendingOverflow _)

theorem guardErrors_pendingOverflow (e : Engine) (acts : List SmtpAction) :
    (guardErrors e acts).1.pendingOverflow = e.pendingOverflow := by
  unfold guardErrors
  dsimp only
  split_ifs <;> rfl

theorem call_closes (hcall : call h o c e = some r)
    (hclose : SmtpAction.close ∈ r.actions) :
    r.engine.closed = true ∧ r.engine.pendingOverflow = false := by
  obtain ⟨p, hp, rfl⟩ := prepared_of_call hcall
  have hnot := (prepare_quiet hp).not_close
  unfold Prepared.finish at hclose ⊢
  split_ifs at hclose ⊢
  · refine ⟨guardErrors_closes (fun hmem => ?_) hclose, ?_⟩
    · have hpump := (List.mem_append.mp hmem).resolve_left hnot
      cases hover : p.engine.pendingOverflow with
      | true => simp [pump, hover]
      | false =>
        refine loop_closes (pump_loop hover) ?_
        simpa [pump, hover] using hpump
    · rw [resume, guardErrors_pendingOverflow]
      cases hover : p.engine.pendingOverflow with
      | true => simp [pump, hover]
      | false => exact (loop_pendingOverflow (pump_loop hover)).trans hover
  · exact absurd hclose hnot

def Settled (e : Engine) : Prop :=
  e.closed = true ∧ (e.awaiting = none ∨ e.awaiting = some .tls)

theorem call_settled (hsettled : Settled e)
    (hcall : call h o c e = some r) : r.actions = [] ∧ Settled r.engine := by
  obtain ⟨hclosed, hwait⟩ := hsettled
  have hnot {w : Awaiting} (hw : w ≠ .tls) : e.awaiting ≠ some w := by
    rcases hwait with h' | h' <;> simp [h', hw.symm]
  cases c with
  | feed chunk =>
    simp only [call, feed, hclosed, if_true, Option.some.injEq] at hcall
    subst hcall
    exact ⟨rfl, hclosed, hwait⟩
  | rcptResult outcome => simp [call, rcptResult, hnot] at hcall
  | deliveryResult outcome => simp [call, deliveryResult, hnot] at hcall
  | authResult ok => simp [call, authResult, hnot] at hcall
  | scramKeysResult keys => simp [call, scramKeysResult, hnot] at hcall
  | tlsUpgraded =>
    simp only [call] at hcall
    split_ifs at hcall
    obtain rfl := Option.some.inj hcall
    exact ⟨rfl, hclosed, .inl rfl⟩

theorem outputs_settled {later : List Call}
    (hsettled : Settled e) (houts : outputs h o e later = some (outs, e')) : outs.flatten = [] := by
  induction later generalizing e outs with
  | nil =>
    obtain ⟨rfl, -⟩ := Prod.mk.inj (Option.some.inj houts)
    rfl
  | cons c cs ih =>
    obtain ⟨r, rest, hcall, hrest, rfl⟩ := outputs_cons houts
    obtain ⟨hnil, hnext⟩ := call_settled hsettled hcall
    rw [List.flatten_cons, hnil, ih hnext hrest, List.nil_append]

theorem resume_speaks (e : Engine) (hacts : acts ≠ []) :
    (resume h o e acts).actions ≠ [] := by
  unfold resume guardErrors
  dsimp only
  split_ifs <;> simp [hacts]

theorem pump_silent (hclosed : e.closed = true) (hover : e.pendingOverflow = false) :
    (pump h o e).actions = [] := by
  have hturns : ∀ n, turns h o n e = [] := by
    rintro (_ | n)
    · rfl
    · simp [turns, running, hclosed]
  simp [pump, hover, hturns]

theorem CallEffect.kept {e' : Engine} (heff : CallEffect e c e') (hc : c.isAnswer = true) :
    e'.closed = e.closed ∧ e'.pendingOverflow = e.pendingOverflow := by
  cases heff <;> first
    | exact ⟨rfl, rfl⟩
    | cases hc

theorem answer_speaks (hinv : GateInv o e g) (hclosed : e.closed = true)
    (hover : e.pendingOverflow = false) (hwait : e.awaiting ≠ none)
    (htls : e.awaiting ≠ some .tls) :
    ∃ c r, call h o c e = some r ∧ r.actions ≠ [] := by
  have hfinish {c : Call} {q : Engine × List SmtpAction} (hc : c.isAnswer = true)
      (hp : prepare h c e = some (answered q)) (hq : q.2 ≠ []) :
      ∃ c r, call h o c e = some r ∧ r.actions ≠ [] := by
    obtain ⟨hclosed', hover'⟩ := (prepare_effect hp).kept hc
    have hnone : (pump h o q.1).actions = [] :=
      pump_silent (hclosed'.trans hclosed) (hover'.trans hover)
    refine ⟨c, resume h o q.1 q.2, ?_, resume_speaks q.1 hq⟩
    rw [call_eq, hp, Option.bind_some, Prepared.conclude, if_pos hc, if_neg (by simp [answered, hnone])]
    rfl
  cases hw : e.awaiting with
  | none => exact absurd hw hwait
  | some w =>
    cases w with
    | rcpt =>
      refine hfinish (c := .rcptResult (.ok ())) (q := rcptAnswered (.ok ()) e) rfl ?_ ?_
      · simp [prepare, hw]
      · simp [rcptAnswered]
    | deliver =>
      refine hfinish (c := .deliveryResult (.ok none))
        (q := (resetTransaction { e with awaiting := none }, [deliveryReply (.ok none)])) rfl ?_ ?_
      · simp [prepare, hw]
      · simp
    | auth =>
      refine hfinish (c := .authResult false) (q := authAnswered false e) rfl ?_ ?_
      · simp [prepare, hw]
      · simp [authAnswered]
    | scramKeys =>
      obtain ⟨session, hcont⟩ := hinv.lookup hw
      refine hfinish (c := .scramKeysResult none) (q := keysProvided h none e) rfl ?_ ?_
      · simp [prepare, hw]
      · simp only [keysProvided, hcont]
        split <;> simp [scramRejected]
    | tls => exact absurd hw htls

theorem run_of_outputs (houts : outputs h o e calls = some (outs, e')) :
    ∃ es, run h o e calls = some (es, e') := by
  induction calls generalizing e outs with
  | nil =>
    obtain ⟨-, rfl⟩ := Prod.mk.inj (Option.some.inj houts)
    exact ⟨[], rfl⟩
  | cons c cs ih =>
    obtain ⟨r, rest, hcall, hrest, -⟩ := outputs_cons houts
    obtain ⟨es, hes⟩ := ih hrest
    refine ⟨callEntry c e :: r.turns.map .pass ++ es, ?_⟩
    simp only [run, hcall, hes, Option.map_some]

theorem outputs_last (houts : outputs h o e calls = some (outs ++ [acts], e')) :
    ∃ c e₀ r, call h o c e₀ = some r ∧ r.actions = acts ∧ r.engine = e' := by
  induction calls generalizing e outs with
  | nil => simp [outputs] at houts
  | cons c cs ih =>
    obtain ⟨r, rest, hcall, hrest, hlist⟩ := outputs_cons houts
    cases outs with
    | nil =>
      obtain ⟨hacts, rfl⟩ := List.cons.inj hlist
      cases cs with
      | nil =>
        obtain ⟨-, rfl⟩ := Prod.mk.inj (Option.some.inj hrest)
        exact ⟨c, e, r, hcall, hacts.symm, rfl⟩
      | cons c' cs =>
        obtain ⟨_, _, _, _, hnil⟩ := outputs_cons hrest
        cases hnil
    | cons a outs =>
      obtain ⟨-, rfl⟩ := List.cons.inj hlist
      exact ih hrest

/-- In every run, nothing is returned after a close exactly when the call that closed
left no question about a recipient, a delivery, a login or SCRAM keys open. -/
theorem silent_after_close {implicitTls : Bool} {calls : List Call} {e : Engine}
    {outs : List (List SmtpAction)} {acts : List SmtpAction}
    (houts : outputs h o (newEngine implicitTls) calls = some (outs ++ [acts], e))
    (hclose : SmtpAction.close ∈ acts) :
    (∀ later outs' e', outputs h o e later = some (outs', e') → outs'.flatten = []) ↔
      e.awaiting = none ∨ e.awaiting = some .tls := by
  obtain ⟨c, e₀, r, hcall, rfl, rfl⟩ := outputs_last houts
  obtain ⟨es, hrun⟩ := run_of_outputs houts
  have hinv := gateInv_run.at_end hrun (gateInv_new implicitTls)
  obtain ⟨hclosed, hover⟩ := call_closes hcall hclose
  constructor
  · intro hsilent
    by_contra hopen
    rw [not_or] at hopen
    obtain ⟨c', r', hcall', hspeaks⟩ := answer_speaks (h := h) hinv hclosed hover hopen.1 hopen.2
    have hnil := hsilent [c'] [r'.actions] r'.engine (by simp [outputs, hcall'])
    rw [List.flatten_cons, List.flatten_nil, List.append_nil] at hnil
    exact hspeaks hnil
  · intro hwait later outs' e' hlater
    exact outputs_settled ⟨hclosed, hwait⟩ hlater

end

def submissionOptions : Options :=
  { hostname := "h".toList, maxSizeBytes := 100, tlsAvailable := true, profile := .submission
    authOffered := true }

/-- Sign in as `u` on a TLS port, then send a message. -/
def submittedMessage : List Call :=
  [.feed (bytesOf "EHLO a\r\nAUTH PLAIN AHUAcA==\r\n"), .authResult true,
    .feed (bytesOf "MAIL FROM:<b>\r\nRCPT TO:<c>\r\n"), .rcptResult (.ok ()),
    .feed (bytesOf "DATA\r\nhi\r\n.\r\n")]

theorem requests_gated_submittedMessage :
    ∃ es e' outs, run asciiHost submissionOptions (newEngine true) submittedMessage = some (es, e') ∧
      outputs asciiHost submissionOptions (newEngine true) submittedMessage = some (outs, e') ∧
      outs.flatten.countP SmtpAction.isRcpt ≤ maxRcptPerSession ∧
      e'.authenticatedAs = some "u".toList ∧
      (Gate.after asciiHost true es).user = some "u".toList := by
  have hsome : (run asciiHost submissionOptions (newEngine true) submittedMessage).any
      (fun r => r.2.authenticatedAs == some "u".toList) = true := by decide +kernel
  obtain ⟨⟨es, e'⟩, hrun, huser⟩ := (Option.any_eq_true _ _).mp hsome
  obtain ⟨outs, houts, -, -, hgate, hcount⟩ := requests_gated hrun
  have hu : e'.authenticatedAs = some "u".toList := beq_iff_eq.mp huser
  exact ⟨es, e', outs, hrun, houts, hcount, hu, hgate.symm.trans hu⟩

theorem exists_close {q : Engine → Bool}
    (hcheck : (call asciiHost txOptions c (newEngine false)).any
      (fun r => decide (SmtpAction.close ∈ r.actions) && q r.engine) = true) :
    ∃ acts e, outputs asciiHost txOptions (newEngine false) [c] = some ([] ++ [acts], e) ∧
      SmtpAction.close ∈ acts ∧ q e = true := by
  obtain ⟨r, hr, hq⟩ := (Option.any_eq_true _ _).mp hcheck
  rw [Bool.and_eq_true, decide_eq_true_eq] at hq
  exact ⟨r.actions, r.engine, by simp [outputs, hr], hq.1, hq.2⟩

/-- One chunk: more errors than a session may make, then a recipient. -/
def errorsThenRcpt : Call :=
  .feed ((List.replicate 21 crlfBytes).flatten ++
    bytesOf "EHLO a\r\nMAIL FROM:<b>\r\nRCPT TO:<c>\r\n")

/-- The session is closed while the recipient is still asked about, and its answer is
passed on to the client. -/
theorem silent_after_close_fails :
    ∃ acts e outs' e',
      outputs asciiHost txOptions (newEngine false) [errorsThenRcpt] = some ([] ++ [acts], e) ∧
      SmtpAction.close ∈ acts ∧
      outputs asciiHost txOptions e [.rcptResult (.ok ())] = some (outs', e') ∧
      outs'.flatten ≠ [] := by
  obtain ⟨acts, e, houts, hclose, hq⟩ := exists_close (c := errorsThenRcpt)
    (q := fun e => (outputs asciiHost txOptions e [.rcptResult (.ok ())]).any
      fun (r : List (List SmtpAction) × Engine) => decide (r.1.flatten ≠ [])) (by decide +kernel)
  obtain ⟨⟨outs', e'⟩, hlater, hne⟩ := (Option.any_eq_true _ _).mp hq
  exact ⟨acts, e, outs', e', houts, hclose, hlater, of_decide_eq_true hne⟩

/-- A session that ends by QUIT. -/
theorem silent_after_close_quit :
    ∃ acts e, outputs asciiHost txOptions (newEngine false) [.feed (bytesOf "QUIT\r\n")] =
        some ([] ++ [acts], e) ∧ SmtpAction.close ∈ acts ∧
      ∀ later outs' e', outputs asciiHost txOptions e later = some (outs', e') →
        outs'.flatten = [] := by
  obtain ⟨acts, e, houts, hclose, hq⟩ := exists_close (c := .feed (bytesOf "QUIT\r\n"))
    (q := fun e => e.awaiting.isNone) (by decide +kernel)
  exact ⟨acts, e, houts, hclose,
    (silent_after_close houts hclose).mpr (.inl (Option.isNone_iff_eq_none.mp hq))⟩

end Ionosphere.Smtp
