import Ionosphere.Lib.Trace
import Ionosphere.Imap.Frame

/-! A run of the IMAP engine, cut at each line it handles and each answer it takes.
Between two moments nothing happens; what every move keeps holds in every run. -/
namespace Ionosphere.Imap

open Ionosphere.Js Ionosphere.Core Ionosphere.Lib

/-- What a public method is made of. A line is handled as it comes, or is queued and taken
from the queue later; `settle` ends the draining of the queue. -/
inductive Move where
  | greeting
  | read (chunk : Bytes)
  | tell (text : Text)
  | line (nonce : Text) (parts : List LinePart)
  | enqueue (parts : List LinePart)
  | dequeue (nonce : Text) (parts : List LinePart)
  | settle
  | backendResult (res : ImapBackendResponse)
  | scramKeysResult (keys : Option ScramStoredKeys)
  | authResult (ok : Bool)
  | tlsEstablished
  | idleTick

def unqueue (parts : List LinePart) (e : Engine) : Engine :=
  { e with queued := e.queued.tail, queuedBytes := e.queuedBytes - lineBytes parts }

section

variable (s : Setup) {e : Engine}

def Move.act : Move → Handler
  | .greeting => fun e => (e, Imap.greeting s e)
  | .read chunk => fun e => ({ e with reader := (e.reader.feed chunk).1 }, [])
  | .tell text => fun e => (e, [say text])
  | .line nonce parts => handleLine s nonce parts
  | .enqueue parts => Imap.enqueue parts
  | .dequeue nonce parts => fun e => handleLine s nonce parts (unqueue parts e)
  | .settle => fun e => (settleQueue e, [])
  | .backendResult res => fun e =>
    match e.pending with
    | some (.backend k) => resume s k res { e with pending := none }
    | _ => (e, [])
  | .scramKeysResult keys => fun e => (Imap.scramKeysResult s keys e).getD (e, [])
  | .authResult ok => fun e =>
    match e.pending with
    | some (.auth tag) => authAnswered s tag ok { e with pending := none }
    | _ => (e, [])
  | .tlsEstablished => fun e => (Imap.tlsEstablished e, [])
  | .idleTick => Imap.idleTick

def Move.Allowed (e : Engine) : Move → Prop
  | .read _ => e.closed = false ∧ e.awaitingTls = false
  | .line _ _ => e.closed = false ∧ queues e = false
  | .enqueue _ => e.closed = false ∧ queues e = true
  | .dequeue _ parts => e.closed = false ∧ e.pending = none ∧ e.queued.head? = some parts
  | .settle => e.queued = [] ∨ canDrain e = false
  | .backendResult _ => ∃ k, e.pending = some (.backend k)
  | .scramKeysResult _ =>
    ∃ tag session stage username,
      e.pending = some (.scramKeys ⟨tag, .scram session stage username⟩)
  | .authResult _ => ∃ tag, e.pending = some (.auth tag)
  | _ => True

abbrev Moment := Trace.Moment Engine Move

abbrev History (e : Engine) (ms : List Moment) (e' : Engine) : Prop :=
  Trace.Linked (Move.act s) Move.Allowed e ms e'

abbrev Cut (e : Engine) (ms : List Moment) (r : Engine × List ImapAction) : Prop :=
  Trace.Cut (Move.act s) Move.Allowed e ms r

def eventMove (nonce : Text) (e : Engine) : ReaderEvent → Move
  | .continue _ => .tell "+ OK"
  | .error message => .tell ("* BAD " ++ message)
  | .line parts => if queues e then .enqueue parts else .line nonce parts

def eventMoments : (Nat → Text) → List ReaderEvent → Engine → List Moment
  | _, [], _ => []
  | nonce, ev :: evs, e =>
    let r := handleReaderEvent s (nonce 0) ev e
    ⟨e, eventMove (nonce 0) e ev⟩ ::
      if r.1.closed then [] else eventMoments (fun i => nonce (i + 1)) evs r.1

def drainMoments : Nat → (Nat → Text) → Engine → List Moment
  | 0, _, _ => []
  | fuel + 1, nonce, e =>
    match e.queued with
    | [] => []
    | parts :: _ =>
      if !canDrain e then []
      else
        ⟨e, .dequeue (nonce 0) parts⟩ ::
          drainMoments fuel (fun i => nonce (i + 1)) (handleLine s (nonce 0) parts (unqueue parts e)).1

def answerMoments (nonce : Nat → Text) (m : Move) (e : Engine) : List Moment :=
  let e' := (m.act s e).1
  ⟨e, m⟩ :: drainMoments s e'.queued.length nonce e' ++
    [⟨(drainLoop s e'.queued.length nonce e').1, .settle⟩]

def stepMoments (i : Input) (e : Engine) : List Moment :=
  match i.call with
  | .greeting => [⟨e, .greeting⟩]
  | .feed chunk =>
    if e.closed || e.awaitingTls then []
    else
      ⟨e, .read chunk⟩ ::
        eventMoments s i.nonce (e.reader.feed chunk).2 { e with reader := (e.reader.feed chunk).1 }
  | .backendResult res => answerMoments s i.nonce (.backendResult res) e
  | .scramKeysResult keys => [⟨e, .scramKeysResult keys⟩]
  | .authResult ok => answerMoments s i.nonce (.authResult ok) e
  | .tlsEstablished => [⟨e, .tlsEstablished⟩]
  | .idleTick => [⟨e, .idleTick⟩]

def runMoments (e : Engine) : List Input → List Moment
  | [] => []
  | i :: is =>
    stepMoments s i e ++
      match step s i e with
      | none => []
      | some r => runMoments r.1 is

/-- A line ends IDLE, goes on with an authentication, is refused, or is a command. -/
inductive Handling (nonce : Text) (parts : List LinePart) (e : Engine) :
    Engine × List ImapAction → Prop
  | idle {tag : Text} (hidle : e.idleTag = some tag) :
      Handling nonce parts e ({ e with idleTag := none }, [endIdle s tag parts])
  | sasl {sasl : SaslPending} (hidle : e.idleTag = none)
      (hpending : e.pending = some (.saslLine sasl)) :
      Handling nonce parts e
        (handleSaslData s nonce sasl (soleText parts) { e with pending := none })
  | refused {text : Text} (hidle : e.idleTag = none)
      (hpending : ∀ sasl, e.pending ≠ some (.saslLine sasl))
      (hverb : ∀ cmd, parseCommand s.host.cases parts = .ok cmd → verbOf cmd.name = none) :
      Handling nonce parts e (e, [say text])
  | command {cmd : ParsedCommand} {verb : Verb} (hidle : e.idleTag = none)
      (hpending : ∀ sasl, e.pending ≠ some (.saslLine sasl))
      (hparse : parseCommand s.host.cases parts = .ok cmd) (hverb : verbOf cmd.name = some verb) :
      Handling nonce parts e (dispatch s nonce verb cmd e)

theorem handleLine_handling (nonce : Text) (parts : List LinePart) (e : Engine) :
    Handling s nonce parts e (handleLine s nonce parts e) := by
  unfold handleLine
  split
  · rename_i tag hidle
    exact .idle hidle
  · rename_i hidle
    split
    · rename_i sasl hpending
      exact .sasl hidle hpending
    · rename_i hpending
      unfold handleCommand
      cases hparse : parseCommand s.host.cases parts with
      | error msg =>
        refine .refused hidle hpending fun cmd hcmd => ?_
        rw [hparse] at hcmd
        cases hcmd
      | ok cmd =>
        dsimp only
        cases hverb : verbOf cmd.name with
        | none =>
          refine .refused hidle hpending fun cmd' hcmd => ?_
          rw [hparse] at hcmd
          cases hcmd
          exact hverb
        | some verb => exact .command hidle hpending hparse hverb

theorem apply_queued (a : Answer) (e : Engine) : (a.apply e).1.queued = e.queued := by
  have hsession : (a.session e).queued = e.queued := by
    unfold Answer.session enableCondstore leaveSelected
    dsimp only
    split_ifs <;> rfl
  unfold Answer.apply
  cases a.request with
  | none => exact hsession
  | some p => exact hsession

theorem Exchanged.queued {began : Bool} {r : Engine × List ImapAction}
    (h : Exchanged e began r) : r.1.queued = e.queued := by
  cases h <;> rfl

/-- Replies, and nothing that a request, the queue or the view depends on changes. -/
structure Talk (e : Engine) (r : Engine × List ImapAction) : Prop where
  pending : r.1.pending = e.pending
  queued : r.1.queued = e.queued
  state : r.1.state = e.state
  selected : r.1.selected = e.selected
  secure : r.1.secure = e.secure
  replies : RepliesOnly r.2

theorem Talk.refuse (e : Engine) (text : Text) : Talk e (e, [say text]) :=
  ⟨rfl, rfl, rfl, rfl, rfl, .one rfl rfl⟩

theorem sessionCommand_cases (nonce : Text) (verb : SessionVerb) (cmd : ParsedCommand)
    (e : Engine) :
    (verb ≠ .login ∧ verb ≠ .authenticate) ∧ Talk e (sessionCommand s nonce cmd verb e) ∨
      verb = .login ∨ verb = .authenticate ∨
      verb = .starttls ∧
        (e.idleTag.isNone && e.pending.isNone && !e.secure && s.options.tlsAvailable) = true ∧
        (sessionCommand s nonce cmd verb e).1 = upgrading e ∧
        RepliesOnly (sessionCommand s nonce cmd verb e).2 := by
  cases verb with
  | login => exact .inr (.inl rfl)
  | authenticate => exact .inr (.inr (.inl rfl))
  | logout =>
    refine .inl ⟨by simp, rfl, rfl, rfl, rfl, rfl, ?_⟩
    simp [sessionCommand, cmdLogout, RepliesOnly, say, ImapAction.announces, ImapAction.asks,
      Reply.announces]
  | starttls =>
    simp only [sessionCommand, cmdStartTls]
    split_ifs with hsecure htls hbusy
    · exact .inl ⟨by simp, .refuse e _⟩
    · exact .inl ⟨by simp, .refuse e _⟩
    · exact .inl ⟨by simp, .refuse e _⟩
    · refine .inr (.inr (.inr ⟨trivial, ?_, rfl, ?_⟩))
      · cases hp : e.pending <;> cases hi : e.idleTag <;> simp_all
      · simp [RepliesOnly, say, ImapAction.announces, ImapAction.asks, Reply.announces]
  | enable =>
    refine .inl ⟨by simp, ?_⟩
    simp only [sessionCommand, cmdEnable]
    cases hstate : e.state with
    | notAuthenticated => exact .refuse e _
    | selected => exact .refuse e _
    | authenticated =>
      refine ⟨rfl, rfl, ?_, rfl, rfl, ?_⟩
      · exact hstate.symm
      · simp [RepliesOnly, say, ImapAction.announces, ImapAction.asks, Reply.announces]
  | compress =>
    refine .inl ⟨by simp, ?_⟩
    simp only [sessionCommand, cmdCompress]
    split_ifs
    · exact .refuse e _
    · exact .refuse e _
    · exact .refuse e _
    · refine ⟨rfl, rfl, rfl, rfl, rfl, ?_⟩
      simp [RepliesOnly, say, ImapAction.announces, ImapAction.asks, Reply.announces]
  | idle =>
    refine .inl ⟨by simp, ?_⟩
    simp only [sessionCommand, cmdIdle]
    split_ifs
    · exact .refuse e _
    · exact ⟨rfl, rfl, rfl, rfl, rfl, .one rfl rfl⟩

theorem handleLine_queued (nonce : Text) (parts : List LinePart) (e : Engine) :
    (handleLine s nonce parts e).1.queued = e.queued ∨
      acceptsStartTls s parts e = true ∧ (handleLine s nonce parts e).1 = upgrading e := by
  have hhandling := handleLine_handling s nonce parts e
  generalize handleLine s nonce parts e = r at hhandling ⊢
  cases hhandling with
  | idle hidle => exact .inl rfl
  | sasl hidle hpending => exact .inl (handleSaslData_exchanged s nonce _ _ _).queued
  | refused => exact .inl rfl
  | @command cmd verb hidle hpending hparse hverb =>
    cases verb with
    | answer v => exact .inl (apply_queued _ e)
    | session v =>
      obtain ⟨-, htalk⟩ | rfl | rfl | ⟨rfl, hacc, hup, -⟩ := sessionCommand_cases s nonce v cmd e
      · exact .inl htalk.queued
      · exact .inl (cmdLogin_exchanged s cmd e).queued
      · exact .inl (cmdAuthenticate_exchanged s nonce cmd e).queued
      · refine .inr ⟨?_, hup⟩
        rw [acceptsStartTls, hacc, hparse]
        simp [hverb]

theorem eventMove_act (nonce : Text) (e : Engine) (ev : ReaderEvent) :
    (eventMove nonce e ev).act s e = handleReaderEvent s nonce ev e := by
  cases ev with
  | «continue» size => rfl
  | error message => rfl
  | line parts =>
    simp only [eventMove, handleReaderEvent]
    split_ifs <;> rfl

theorem eventMoments_history (nonce : Nat → Text) (evs : List ReaderEvent)
    (hopen : e.closed = false) :
    Cut s e (eventMoments s nonce evs e) (handleEvents s nonce evs e) := by
  induction evs generalizing nonce e with
  | nil => exact .nil e
  | cons ev evs ih =>
    have hallowed : (eventMove (nonce 0) e ev).Allowed e := by
      cases ev with
      | «continue» size => trivial
      | error message => trivial
      | line parts =>
        simp only [eventMove]
        split_ifs with hq
        · exact ⟨hopen, hq⟩
        · exact ⟨hopen, by simpa using hq⟩
    have hact := eventMove_act s (nonce 0) e ev
    simp only [eventMoments, handleEvents]
    split_ifs with hclosed
    · exact .one hallowed hact
    · have hrest := ih (fun i => nonce (i + 1)) (by simpa using hclosed)
      rw [← hact] at hrest ⊢
      exact .cons hallowed hrest

theorem drainMoments_history (nonce : Nat → Text) (fuel : Nat) (e : Engine) :
    Cut s e (drainMoments s fuel nonce e) (drainLoop s fuel nonce e) := by
  induction fuel generalizing nonce e with
  | zero => exact .nil e
  | succ fuel ih =>
    unfold drainMoments drainLoop
    cases hqueue : e.queued with
    | nil => exact .nil e
    | cons parts queued =>
      dsimp only
      split_ifs with hdrain
      · exact .nil e
      · have hcan : e.pending = none ∧ e.closed = false := by simpa [canDrain] using hdrain
        have hallowed : (Move.dequeue (nonce 0) parts).Allowed e :=
          ⟨hcan.2, hcan.1, by rw [hqueue]; rfl⟩
        have hunqueue : unqueue parts e =
            { e with queued := queued, queuedBytes := e.queuedBytes - lineBytes parts } := by
          rw [unqueue, hqueue]
          rfl
        rw [← hunqueue]
        exact .cons hallowed (ih (fun i => nonce (i + 1)) _)

theorem drainLoop_stops (nonce : Nat → Text) {fuel : Nat}
    (hfuel : e.queued.length ≤ fuel) :
    (drainLoop s fuel nonce e).1.queued = [] ∨ canDrain (drainLoop s fuel nonce e).1 = false := by
  induction fuel generalizing nonce e with
  | zero => exact .inl (List.length_eq_zero_iff.mp (Nat.le_zero.mp hfuel))
  | succ fuel ih =>
    unfold drainLoop
    cases hqueue : e.queued with
    | nil => exact .inl hqueue
    | cons parts queued =>
      dsimp only
      split_ifs with hdrain
      · exact .inr (by simpa using hdrain)
      · refine ih (fun i => nonce (i + 1)) ?_
        rw [hqueue, List.length_cons] at hfuel
        obtain hkeep | ⟨-, hup⟩ := handleLine_queued s (nonce 0) parts
          { e with queued := queued, queuedBytes := e.queuedBytes - lineBytes parts }
        · rw [hkeep]
          exact Nat.le_of_succ_le_succ hfuel
        · rw [hup]
          exact Nat.zero_le _

theorem answerMoments_history (nonce : Nat → Text) {m : Move} (hallowed : m.Allowed e) :
    Cut s e (answerMoments s nonce m e) ((drainQueued s nonce (m.act s e).1).1,
      (m.act s e).2 ++ (drainQueued s nonce (m.act s e).1).2) := by
  have hstop : (Move.settle).Allowed
      (drainLoop s (m.act s e).1.queued.length nonce (m.act s e).1).1 :=
    drainLoop_stops s nonce le_rfl
  have hdrain := (drainMoments_history s nonce (m.act s e).1.queued.length (m.act s e).1).append
    (.one hstop (r := (settleQueue _, [])) rfl)
  rw [List.append_nil] at hdrain
  exact .cons hallowed hdrain

theorem step_history {i : Input} {r : Engine × List ImapAction}
    (h : step s i e = some r) : Cut s e (stepMoments s i e) r := by
  obtain ⟨c, nonce⟩ := i
  cases c with
  | greeting => exact .one trivial (Option.some.inj h)
  | tlsEstablished => exact .one trivial (Option.some.inj h)
  | idleTick => exact .one trivial (Option.some.inj h)
  | feed chunk =>
    have hr : feed s nonce chunk e = r := Option.some.inj h
    rw [← hr]
    simp only [stepMoments, feed]
    split_ifs with hclosed
    · exact .nil e
    · have hopen : e.closed = false ∧ e.awaitingTls = false := by simpa using hclosed
      exact Trace.Cut.cons (m := Move.read chunk) hopen (eventMoments_history s nonce
        (e.reader.feed chunk).2 (e := { e with reader := (e.reader.feed chunk).1 }) hopen.1)
  | scramKeysResult keys =>
    have hallowed : (Move.scramKeysResult keys).Allowed e := by
      simp only [step, scramKeysResult] at h
      split at h
      · rename_i tag session stage username hpending
        exact ⟨tag, session, stage, username, hpending⟩
      · cases h
    refine .one hallowed ?_
    have hres : scramKeysResult s keys e = some r := h
    simp only [Move.act, hres, Option.getD_some]
  | backendResult res =>
    obtain ⟨k, hpending, rfl⟩ := backendResult_spec s h
    have hact : (Move.backendResult res).act s e = resume s k res { e with pending := none } := by
      simp only [Move.act, hpending]
    have hanswer := answerMoments_history s nonce (m := .backendResult res) ⟨k, hpending⟩
    rw [hact] at hanswer
    exact hanswer
  | authResult ok =>
    obtain ⟨tag, hpending, rfl⟩ := authResult_spec s h
    have hact : (Move.authResult ok).act s e = authAnswered s tag ok { e with pending := none } := by
      simp only [Move.act, hpending]
    have hanswer := answerMoments_history s nonce (m := .authResult ok) ⟨tag, hpending⟩
    rw [hact] at hanswer
    exact hanswer

theorem run_history {is : List Input} {e e' : Engine} {acts : List (List ImapAction)}
    (h : run s e is = some (e', acts)) : Cut s e (runMoments s e is) (e', acts.flatten) :=
  (Trace.Cut.run (step s) (stepMoments s) (P := fun _ => True) (fun _ => rfl)
    (fun e i _ => by rw [run]; cases step s i e <;> rfl) (fun _ => rfl)
    (fun _ _ _ _ h => by rw [runMoments, h]) (fun _ _ _ _ h => ⟨step_history s h, trivial⟩) trivial
    h).1

end

end Ionosphere.Imap
