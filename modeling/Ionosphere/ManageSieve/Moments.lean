import Ionosphere.Lib.Trace
import Ionosphere.ManageSieve.Engine

/-! A run of the ManageSieve engine, cut at each line it handles and each answer it takes. -/
namespace Ionosphere.ManageSieve

open Ionosphere.Js Ionosphere.Core Ionosphere.Lib

open Ionosphere.Imap (LinePart Reader ReaderEvent)

local instance : Coe String Text := ⟨String.toList⟩

/-- An answer of the backend. -/
inductive Answer where
  | auth (ok : Bool)
  | op (result : OpResult)
  | list (scripts : List Script)
  | get (content : Option Text)
  | scramKeys (keys : Option ScramStoredKeys)

/-- What a public method is made of. A line is handled as it comes, as a command or as the
client's SASL data, or is queued and taken from the queue later. -/
inductive Move where
  | greeting
  | read (chunk : Bytes)
  | tell (text : Text)
  | command (nonce : Text) (parts : List LinePart)
  | response (nonce : Text) (parts : List LinePart)
  | enqueue (parts : List LinePart)
  | dequeue (nonce : Text) (parts : List LinePart)
  | answer (a : Answer)
  | tlsUpgraded

variable {e : Engine} {m : Move}

def Pending.requests : Pending → Bool
  | .authLine _ => false
  | _ => true

def requesting (e : Engine) : Bool := e.pending.any Pending.requests

def Answer.fits : Answer → Pending → Bool
  | .auth _, .auth _ | .auth _, .authLine _ => true
  | .op _, .putScript _ | .op _, .checkScript | .op _, .op => true
  | .list _, .list => true
  | .get _, .get _ => true
  | .scramKeys _, .scramKeys => true
  | _, _ => false

section

variable (s : Setup)

def Answer.act : Answer → Handler
  | .auth ok => authGiven ok
  | .op result => opGiven result
  | .list scripts => listGiven scripts
  | .get content => getGiven content
  | .scramKeys keys => scramKeysGiven s keys

def respond (nonce : Text) (parts : List LinePart) : Handler := fun e =>
  match e.pending with
  | some (.authLine sasl) =>
    if saslData parts = ['*'] then abort e else handleSaslData s nonce sasl (saslData parts) e
  | _ => (e, [])

def Move.act : Move → Handler
  | .greeting => fun e => (e, ManageSieve.greeting s e)
  | .read chunk => fun e => ({ e with reader := (e.reader.feed chunk).1 }, [])
  | .tell text => fun e => (e, [.reply text])
  | .command nonce parts => handleLine s nonce parts
  | .response nonce parts => respond s nonce parts
  | .enqueue parts => fun e => ({ e with queued := e.queued ++ [parts] }, [])
  | .dequeue nonce parts => fun e => handleLine s nonce parts { e with queued := e.queued.tail }
  | .answer a => a.act s
  | .tlsUpgraded => ManageSieve.tlsUpgraded s

def Move.Allowed (e : Engine) : Move → Prop
  | .read _ => e.closed = false ∧ e.awaitingTls = false
  | .command _ _ => e.closed = false ∧ e.awaitingTls = false ∧ e.pending = none
  | .response _ _ =>
    e.closed = false ∧ e.awaitingTls = false ∧ ∃ sasl, e.pending = some (.authLine sasl)
  | .enqueue _ => e.closed = false ∧ e.awaitingTls = false ∧ requesting e = true
  | .dequeue _ parts => canDrain e = true ∧ e.queued.head? = some parts
  | .answer a => ∃ p, e.pending = some p ∧ a.fits p = true
  | _ => True

abbrev Moment := Trace.Moment Engine Move

abbrev History (e : Engine) (ms : List Moment) (e' : Engine) : Prop :=
  Trace.Linked (Move.act s) Move.Allowed e ms e'

abbrev Cut (e : Engine) (ms : List Moment) (r : Engine × List ManageSieveAction) : Prop :=
  Trace.Cut (Move.act s) Move.Allowed e ms r

def drainMoments : Nat → (Nat → Text) → Engine → List Moment
  | 0, _, _ => []
  | fuel + 1, nonce, e =>
    match e.queued with
    | [] => []
    | parts :: queued =>
      if !canDrain e then []
      else
        ⟨e, .dequeue (nonce 0) parts⟩ ::
          drainMoments fuel (fun i => nonce (i + 1))
            (handleLine s (nonce 0) parts { e with queued := queued }).1

def resumedMoments (nonce : Nat → Text) (m : Move) (e : Engine) : List Moment :=
  ⟨e, m⟩ :: drainMoments s (m.act s e).1.queued.length nonce (m.act s e).1

def eventMoments (nonce : Nat → Text) (e : Engine) : ReaderEvent → List Moment
  | .continue _ => [⟨e, .tell "OK"⟩]
  | .error message => [⟨e, .tell ("NO \"" ++ message ++ "\"")⟩]
  | .line parts =>
    match e.pending with
    | some (.authLine _) =>
      if saslData parts = ['*'] then resumedMoments s nonce (.response (nonce 0) parts) e
      else [⟨e, .response (nonce 0) parts⟩]
    | some _ => [⟨e, .enqueue parts⟩]
    | none => [⟨e, .command (nonce 0) parts⟩]

def eventsMoments : (Nat → Nat → Text) → List ReaderEvent → Engine → List Moment
  | _, [], _ => []
  | nonce, ev :: evs, e =>
    let r := onEvent s (nonce 0) ev e
    eventMoments s (nonce 0) e ev ++
      if r.1.closed || r.1.awaitingTls then [] else eventsMoments (fun i => nonce (i + 1)) evs r.1

def stepMoments (i : Input) (e : Engine) : List Moment :=
  match i.call with
  | .greeting => [⟨e, .greeting⟩]
  | .feed chunk =>
    if e.closed || e.awaitingTls then []
    else
      ⟨e, .read chunk⟩ ::
        eventsMoments s i.nonce (e.reader.feed chunk).2 { e with reader := (e.reader.feed chunk).1 }
  | .tlsUpgraded => [⟨e, .tlsUpgraded⟩]
  | .authResult ok => resumedMoments s (i.nonce 0) (.answer (.auth ok)) e
  | .opResult result => resumedMoments s (i.nonce 0) (.answer (.op result)) e
  | .listResult scripts => resumedMoments s (i.nonce 0) (.answer (.list scripts)) e
  | .getResult content => resumedMoments s (i.nonce 0) (.answer (.get content)) e
  | .scramKeysResult keys => resumedMoments s (i.nonce 0) (.answer (.scramKeys keys)) e

def runMoments (e : Engine) : List Input → List Moment
  | [] => []
  | i :: is =>
    stepMoments s i e ++
      match step s i e with
      | none => []
      | some r => runMoments r.1 is

def lineVerb (parts : List LinePart) : Option Verb :=
  (parseParts parts).head?.bind fun name => verbOf (toUpperCase s.host.cases name)

def acceptsStartTls (parts : List LinePart) (e : Engine) : Bool :=
  decide (lineVerb s parts = some .startTls) && !e.secure && s.options.tlsAvailable &&
    e.pending.isNone

def waitsForClient (parts : List LinePart) (e : Engine) : Bool :=
  decide (lineVerb s parts = some .authenticate) && !e.authed && authAllowed s e &&
    (saslOf s (toUpperCase s.host.cases ((parseParts parts)[1]?.getD []))).isSome &&
    (parseParts parts)[2]?.isNone

/-- What a handled line does to the engine. -/
inductive LineEffect (parts : List LinePart) (e : Engine) :
    Engine × List ManageSieveAction → Prop
  | talk (acts : List ManageSieveAction) : LineEffect parts e (e, acts)
  | logout (acts : List ManageSieveAction) : LineEffect parts e ({ e with closed := true }, acts)
  | startTls (acts : List ManageSieveAction) (haccepts : acceptsStartTls s parts e = true) :
      LineEffect parts e ({ e with awaitingTls := true, queued := [] }, acts)
  | exchange (scram : Option ScramExchange) (pending : Option Pending)
      (acts : List ManageSieveAction)
      (hpending : pending = e.pending ∨ pending.any Pending.requests = true) :
      LineEffect parts e ({ e with scram := scram, pending := pending }, acts)
  | await (scram : Option ScramExchange) (sasl : Sasl) (acts : List ManageSieveAction)
      (hwaits : waitsForClient s parts e = true) :
      LineEffect parts e ({ e with scram := scram, pending := some (.authLine sasl) }, acts)

variable {s}

theorem LineEffect.ask {parts : List LinePart} {p : Pending} (h : p.requests = true)
    (action : ManageSieveAction) : LineEffect s parts e (ManageSieve.ask p action e) :=
  .exchange e.scram (some p) [action] (.inr h)

variable (s)

theorem scriptCommand_effect (parts : List LinePart) (values : List Text) (verb : ScriptVerb)
    (e : Engine) : LineEffect s parts e (scriptCommand s values verb e) := by
  cases verb with
  | putScript =>
    simp only [scriptCommand, cmdPutScript]
    cases values[1]? with
    | none => exact .talk _
    | some first =>
      cases values[2]? with
      | none => exact .talk _
      | some second => exact .ask rfl _
  | checkScript =>
    simp only [scriptCommand, cmdCheckScript]
    cases values[1]? with
    | none => exact .talk _
    | some name => exact .ask rfl _
  | listScripts => exact .ask rfl _
  | setActive => exact .ask rfl _
  | getScript =>
    simp only [scriptCommand, cmdGetScript]
    cases values[1]? with
    | none => exact .talk _
    | some name => exact .ask rfl _
  | deleteScript =>
    simp only [scriptCommand, cmdDeleteScript]
    cases values[1]? with
    | none => exact .talk _
    | some name => exact .ask rfl _
  | renameScript =>
    simp only [scriptCommand, cmdRenameScript]
    cases values[1]? with
    | none => exact .talk _
    | some first =>
      cases values[2]? with
      | none => exact .talk _
      | some second => exact .ask rfl _
  | haveSpace =>
    simp only [scriptCommand, cmdHaveSpace]
    split_ifs
    · exact .talk _
    · exact .talk _

theorem decodePlain_effect (parts : List LinePart) (b64 : Text) (e : Engine) :
    LineEffect s parts e (decodePlain b64 e) := by
  unfold decodePlain
  split
  · exact .talk _
  · split
    · exact .talk _
    · exact .exchange e.scram _ _ (.inr rfl)

theorem handleScramLine_pending (nonce b64 : Text) (e : Engine) :
    ∃ scram pending acts,
      handleScramLine s nonce b64 e = ({ e with scram := scram, pending := pending }, acts) ∧
      (pending = e.pending ∨ pending.any Pending.requests = true ∨
        pending = some (.authLine .scram) ∧ ∀ sc, e.scram = some sc → sc.stage = .clientFinal) := by
  unfold handleScramLine
  split
  · exact ⟨e.scram, e.pending, _, rfl, .inl rfl⟩
  · rename_i sc hsc
    by_cases hlast : sc.stage = .serverFinal
    · rw [if_pos hlast]
      exact ⟨none, _, _, rfl, .inr (.inl rfl)⟩
    · rw [if_neg hlast]
      cases decodeSaslBase64 b64 with
      | none => exact ⟨none, e.pending, _, rfl, .inl rfl⟩
      | some bytes =>
        dsimp only
        by_cases hfirst : sc.stage = .clientFirst
        · rw [if_pos hfirst]
          split
          · exact ⟨_, _, _, rfl, .inr (.inl rfl)⟩
          · exact ⟨none, e.pending, _, rfl, .inl rfl⟩
        · rw [if_neg hfirst]
          split
          · refine ⟨_, _, _, rfl, .inr (.inr ⟨rfl, fun sc' hsc' => ?_⟩)⟩
            rw [hsc] at hsc'
            cases hsc'
            cases hstage : sc.stage with
            | clientFirst => exact absurd hstage hfirst
            | clientFinal => rfl
            | serverFinal => exact absurd hstage hlast
          · exact ⟨none, e.pending, _, rfl, .inl rfl⟩

theorem cmdAuthenticate_effect (nonce : Text) {parts : List LinePart}
    (hverb : lineVerb s parts = some .authenticate) :
    LineEffect s parts e (cmdAuthenticate s nonce (parseParts parts) e) := by
  unfold cmdAuthenticate
  split_ifs with hauthed hallowed
  · exact .talk _
  · exact .talk _
  · have hopen : e.authed = false ∧ authAllowed s e = true := by simp_all
    have hwaits : ∀ sasl, saslOf s (toUpperCase s.host.cases ((parseParts parts)[1]?.getD [])) =
        some sasl → (parseParts parts)[2]? = none → waitsForClient s parts e = true := by
      intro sasl hsasl hdata
      simp [waitsForClient, hverb, hopen.1, hopen.2, hsasl, hdata]
    cases hsasl : saslOf s (toUpperCase s.host.cases ((parseParts parts)[1]?.getD [])) with
    | none => exact .talk _
    | some sasl =>
      cases sasl with
      | scram =>
        cases hdata : (parseParts parts)[2]? with
        | none => exact .await _ _ _ (hwaits _ hsasl hdata)
        | some initial =>
          obtain ⟨scram, pending, acts, heq, hpending⟩ := handleScramLine_pending s nonce initial
            { e with
              scram := some ⟨ScramServerSession.new s.options.scramDecoySecret, .clientFirst, none⟩ }
          dsimp only
          rw [heq]
          refine .exchange scram pending acts ?_
          obtain hkeep | hreq | ⟨-, hstage⟩ := hpending
          · exact .inl hkeep
          · exact .inr hreq
          · cases hstage _ rfl
      | plain =>
        cases hdata : (parseParts parts)[2]? with
        | none => exact .await e.scram _ _ (hwaits _ hsasl hdata)
        | some initial => exact decodePlain_effect s parts initial e

theorem handleLine_effect (nonce : Text) (parts : List LinePart) (e : Engine) :
    LineEffect s parts e (handleLine s nonce parts e) := by
  unfold handleLine
  cases hvalues : parseParts parts with
  | nil => exact .talk _
  | cons name values =>
    have hverb : lineVerb s parts = verbOf (toUpperCase s.host.cases name) := by
      rw [lineVerb, hvalues]
      rfl
    dsimp only
    rw [← hverb, ← hvalues]
    cases hline : lineVerb s parts with
    | none =>
      dsimp only
      split_ifs
      · exact .talk _
      · exact .talk _
    | some verb =>
      cases verb with
      | logout => exact .logout _
      | noop => exact .talk _
      | capability => exact .talk _
      | authenticate => exact cmdAuthenticate_effect s nonce hline
      | startTls =>
        simp only [cmdStartTls]
        split_ifs with hsecure htls hpending
        · exact .talk _
        · exact .talk _
        · exact .talk _
        · refine .startTls _ ?_
          simp_all [acceptsStartTls]
      | script verb =>
        dsimp only
        split_ifs
        · exact .talk _
        · exact scriptCommand_effect s parts _ verb e

theorem canDrain_iff :
    canDrain e = true ↔ e.pending = none ∧ e.closed = false ∧ e.awaitingTls = false := by
  simp [canDrain, and_assoc]

theorem drainMoments_history (nonce : Nat → Text) (fuel : Nat) (e : Engine) :
    Cut s e (drainMoments s fuel nonce e) (drainLoop s fuel nonce e) := by
  induction fuel generalizing nonce e with
  | zero => exact .nil e
  | succ fuel ih =>
    unfold drainMoments drainLoop
    cases hqueue : e.queued with
    | nil => exact .nil e
    | cons parts queued =>
      dsimp only
      cases hcan : canDrain e with
      | false => exact .nil e
      | true =>
        have hallowed : (Move.dequeue (nonce 0) parts).Allowed e := ⟨hcan, by rw [hqueue]; rfl⟩
        have htail : { e with queued := queued } = { e with queued := e.queued.tail } := by
          rw [hqueue]
          rfl
        simp only [htail, Bool.not_true, Bool.false_eq_true, if_false]
        exact .cons hallowed (ih (fun i => nonce (i + 1)) _)

theorem resumedMoments_history (nonce : Nat → Text) (hallowed : m.Allowed e) :
    Cut s e (resumedMoments s nonce m e) (resumed s nonce (m.act s e)) :=
  .cons hallowed (drainMoments_history s nonce _ _)

theorem eventMoments_history (nonce : Nat → Text) (hclosed : e.closed = false)
    (htls : e.awaitingTls = false) (ev : ReaderEvent) :
    Cut s e (eventMoments s nonce e ev) (onEvent s nonce ev e) := by
  cases ev with
  | «continue» size => exact .one (m := Move.tell "OK") trivial rfl
  | error message => exact .one (m := Move.tell ("NO \"" ++ message ++ "\"")) trivial rfl
  | line parts =>
    cases hpending : e.pending with
    | none =>
      simp only [eventMoments, onEvent, hpending]
      exact .one (m := Move.command (nonce 0) parts) ⟨hclosed, htls, hpending⟩ rfl
    | some p =>
      have hqueued : ∀ {p : Pending}, e.pending = some p → p.requests = true →
          Cut s e [⟨e, .enqueue parts⟩] ({ e with queued := e.queued ++ [parts] }, []) := by
        intro p hp hreq
        have hrequesting : requesting e = true := by rw [requesting, hp]; exact hreq
        exact .one (m := Move.enqueue parts) ⟨hclosed, htls, hrequesting⟩ rfl
      cases p with
      | authLine sasl =>
        have hallowed : (Move.response (nonce 0) parts).Allowed e :=
          ⟨hclosed, htls, sasl, hpending⟩
        simp only [eventMoments, onEvent, hpending]
        by_cases hstar : saslData parts = ['*']
        · have hact : (Move.response (nonce 0) parts).act s e = abort e := by
            simp only [Move.act, respond, hpending, if_pos hstar]
          have hresumed := resumedMoments_history s nonce hallowed
          rw [hact] at hresumed
          simpa only [if_pos hstar] using hresumed
        · have hact : (Move.response (nonce 0) parts).act s e =
              handleSaslData s (nonce 0) sasl (saslData parts) e := by
            simp only [Move.act, respond, hpending, if_neg hstar]
          simpa only [if_neg hstar] using Trace.Cut.one hallowed hact
      | _ => simpa only [eventMoments, onEvent, hpending] using hqueued hpending rfl

theorem eventsMoments_history (nonce : Nat → Nat → Text) (evs : List ReaderEvent)
    (hclosed : e.closed = false) (htls : e.awaitingTls = false) :
    Cut s e (eventsMoments s nonce evs e) (onEvents s nonce evs e) := by
  induction evs generalizing nonce e with
  | nil => exact .nil e
  | cons ev evs ih =>
    have hfirst := eventMoments_history s (nonce 0) hclosed htls ev
    simp only [eventsMoments, onEvents]
    split_ifs with hstop
    · rw [List.append_nil]
      exact hfirst
    · have hopen : (onEvent s (nonce 0) ev e).1.closed = false ∧
          (onEvent s (nonce 0) ev e).1.awaitingTls = false := by
        simpa using hstop
      exact hfirst.append (ih (fun i => nonce (i + 1)) hopen.1 hopen.2)

theorem answer_history {a : Answer} {p : Pending} (nonce : Nat → Text)
    (hpending : e.pending = some p) (hfits : a.fits p = true) :
    Cut s e (resumedMoments s nonce (.answer a) e) (resumed s nonce (a.act s e)) :=
  resumedMoments_history s nonce (m := .answer a) ⟨p, hpending, hfits⟩

theorem step_history {i : Input} {r : Engine × List ManageSieveAction}
    (h : step s i e = some r) : Cut s e (stepMoments s i e) r := by
  obtain ⟨c, nonce⟩ := i
  cases c with
  | greeting => exact .one (m := Move.greeting) trivial (Option.some.inj h)
  | tlsUpgraded => exact .one (m := Move.tlsUpgraded) trivial (Option.some.inj h)
  | feed chunk =>
    have hr : feed s nonce chunk e = r := Option.some.inj h
    simp only [stepMoments]
    unfold feed at hr
    split_ifs at hr with hclosed htls
    · rw [hclosed, Bool.true_or, if_pos rfl, ← hr]
      exact .nil e
    · rw [htls, Bool.or_true, if_pos rfl, ← hr]
      exact .nil e
    · have hopen : e.closed = false ∧ e.awaitingTls = false := by simp_all
      have hgo : ¬ (e.closed || e.awaitingTls) = true := by simp [hopen.1, hopen.2]
      rw [if_neg hgo, ← hr]
      exact Trace.Cut.cons (m := Move.read chunk) hopen (eventsMoments_history s nonce
        (e.reader.feed chunk).2 (e := { e with reader := (e.reader.feed chunk).1 }) hopen.1 hopen.2)
  | authResult ok =>
    simp only [step, authResult] at h
    split at h
    · rename_i sasl hpending
      rw [← Option.some.inj h]
      exact answer_history s (nonce 0) (a := .auth ok) hpending rfl
    · rename_i sasl hpending
      rw [← Option.some.inj h]
      exact answer_history s (nonce 0) (a := .auth ok) hpending rfl
    · cases h
  | opResult result =>
    simp only [step, opResult] at h
    split at h
    · rename_i name hpending
      rw [← Option.some.inj h]
      exact answer_history s (nonce 0) (a := .op result) hpending rfl
    · rename_i hpending
      rw [← Option.some.inj h]
      exact answer_history s (nonce 0) (a := .op result) hpending rfl
    · rename_i hpending
      rw [← Option.some.inj h]
      exact answer_history s (nonce 0) (a := .op result) hpending rfl
    · cases h
  | listResult scripts =>
    simp only [step, listResult] at h
    split at h
    · rename_i hpending
      rw [← Option.some.inj h]
      exact answer_history s (nonce 0) (a := .list scripts) hpending rfl
    · cases h
  | getResult content =>
    simp only [step, getResult] at h
    split at h
    · rename_i name hpending
      rw [← Option.some.inj h]
      exact answer_history s (nonce 0) (a := .get content) hpending rfl
    · cases h
  | scramKeysResult keys =>
    simp only [step, scramKeysResult] at h
    split at h
    · rename_i hpending
      rw [← Option.some.inj h]
      exact answer_history s (nonce 0) (a := .scramKeys keys) hpending rfl
    · cases h

theorem run_history {is : List Input} {e e' : Engine} {acts : List (List ManageSieveAction)}
    (h : run s e is = some (e', acts)) : Cut s e (runMoments s e is) (e', acts.flatten) :=
  (Trace.Cut.run (step s) (stepMoments s) (P := fun _ => True) (fun _ => rfl)
    (fun e i _ => by rw [run]; cases step s i e <;> rfl) (fun _ => rfl)
    (fun _ _ _ _ h => by rw [runMoments, h]) (fun _ _ _ _ h => ⟨step_history s h, trivial⟩) trivial
    h).1

/-- While the handshake is awaited the session is open and nothing waits. -/
def Plain (e : Engine) : Prop :=
  e.awaitingTls = true → e.closed = false ∧ e.pending = none ∧ e.queued = []

theorem plain_of_open (h : e.awaitingTls = false) : Plain e := by
  intro htls
  rw [h] at htls
  cases htls

theorem handleLine_plain (nonce : Text) (parts : List LinePart)
    (hclosed : e.closed = false) (htls : e.awaitingTls = false) :
    Plain (handleLine s nonce parts e).1 := by
  have heffect := handleLine_effect s nonce parts e
  generalize handleLine s nonce parts e = r at heffect ⊢
  cases heffect with
  | talk acts => exact plain_of_open htls
  | logout acts => exact plain_of_open htls
  | startTls acts haccepts =>
    intro _
    refine ⟨hclosed, ?_, rfl⟩
    simp only [acceptsStartTls, Bool.and_eq_true, Option.isNone_iff_eq_none] at haccepts
    exact haccepts.2
  | exchange scram pending acts hpending => exact plain_of_open htls
  | await scram sasl acts hwaits => exact plain_of_open htls

theorem decodePlain_awaitingTls (b64 : Text) (e : Engine) :
    (decodePlain b64 e).1.awaitingTls = e.awaitingTls := by
  unfold decodePlain
  split
  · rfl
  · split <;> rfl

theorem respond_awaitingTls (nonce : Text) (parts : List LinePart) (e : Engine) :
    (respond s nonce parts e).1.awaitingTls = e.awaitingTls := by
  unfold respond
  split
  · rename_i sasl hpending
    split_ifs
    · rfl
    · cases sasl with
      | plain => exact decodePlain_awaitingTls _ _
      | scram =>
        obtain ⟨scram, pending, acts, heq, -⟩ :=
          handleScramLine_pending s nonce (saslData parts) { e with pending := none }
        simp only [handleSaslData, heq]
  · rfl

theorem act_plain (hallowed : m.Allowed e) (h : Plain e) :
    Plain (m.act s e).1 := by
  cases m with
  | greeting => exact h
  | read chunk => exact h
  | tell text => exact h
  | command nonce parts => exact handleLine_plain s nonce parts hallowed.1 hallowed.2.1
  | response nonce parts =>
    refine plain_of_open ?_
    rw [Move.act, respond_awaitingTls]
    exact hallowed.2.1
  | enqueue parts => exact plain_of_open hallowed.2.1
  | dequeue nonce parts =>
    obtain ⟨-, hclosed, htls⟩ := canDrain_iff.mp hallowed.1
    exact handleLine_plain s nonce parts (e := { e with queued := e.queued.tail }) hclosed htls
  | answer a =>
    obtain ⟨p, hp, -⟩ := hallowed
    have htls : e.awaitingTls = false := by
      cases hwait : e.awaitingTls with
      | false => rfl
      | true =>
        have hnone := (h hwait).2.1
        rw [hp] at hnone
        cases hnone
    refine plain_of_open ?_
    cases a with
    | auth ok =>
      simp only [Move.act, Answer.act, authGiven]
      split_ifs <;> exact htls
    | op result => exact htls
    | list scripts => exact htls
    | get content => exact htls
    | scramKeys keys =>
      simp only [Move.act, Answer.act, scramKeysGiven]
      split
      · exact htls
      · split <;> exact htls
  | tlsUpgraded => exact plain_of_open rfl

theorem run_plain {is : List Input} {e e' : Engine} {acts : List (List ManageSieveAction)}
    (h : Plain e) (hrun : run s e is = some (e', acts)) : Plain e' :=
  ((run_history s hrun).1.invariant h fun _ _ hallowed hp => act_plain s hallowed hp).2

end

end Ionosphere.ManageSieve
