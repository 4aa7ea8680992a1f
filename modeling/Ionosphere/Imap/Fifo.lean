import Ionosphere.Imap.Discipline

/-! Lines in the order they come. A line is handled at once or waits in a queue for the
answer that is pending; the answer drains the queue. The draining stops at any pending
exchange, but a line that comes while the client or the SCRAM keys are awaited is not
queued: an AUTHENTICATE taken from the queue leaves the lines behind it there. -/
namespace Ionosphere.Imap

open Ionosphere.Js Ionosphere.Core Ionosphere.Lib

variable {e : Engine}

section

variable (s : Setup)

def Move.arrived : Move → List (List LinePart)
  | .line _ parts => [parts]
  | .enqueue parts => [parts]
  | _ => []

def Move.handled : Move → List (List LinePart)
  | .line _ parts => [parts]
  | .dequeue _ parts => [parts]
  | _ => []

/-- The lines a move gives up: STARTTLS drops what waits behind it, and a queue that grows
too long is dropped with the connection. -/
def Move.discarded (e : Engine) : Move → List (List LinePart)
  | .line _ parts => if acceptsStartTls s parts e then e.queued else []
  | .dequeue _ parts => if acceptsStartTls s parts e then e.queued.tail else []
  | .enqueue parts =>
    if maxQueuedLineBytes < e.queuedBytes + lineBytes parts then e.queued ++ [parts] else []
  | _ => []

def arrivals (ms : List Moment) : List (List LinePart) := ms.flatMap fun m => m.move.arrived

def disposals (ms : List Moment) : List (List LinePart) :=
  ms.flatMap fun m => m.move.handled ++ m.move.discarded s m.state

theorem arrivals_snoc (ms : List Moment) (m : Moment) :
    arrivals (ms ++ [m]) = arrivals ms ++ m.move.arrived := by
  simp [arrivals]

theorem disposals_snoc (ms : List Moment) (m : Moment) :
    disposals s (ms ++ [m]) =
      disposals s ms ++ (m.move.handled ++ m.move.discarded s m.state) := by
  simp [disposals]

/-- Every line that came was handled or given up, or is queued, in the order they came; was
handled, or is queued, if none was given up; and a line was handled as it came only when
none was queued. -/
structure InOrder (ms : List Moment) (e : Engine) : Prop where
  order : disposals s ms ++ e.queued = arrivals ms
  handled : (∀ m ∈ ms, m.move.discarded s m.state = []) →
    (ms.flatMap fun m => m.move.handled) ++ e.queued = arrivals ms
  fresh : ∀ m ∈ ms, ∀ nonce parts, m.move = .line nonce parts → m.state.queued = []

theorem handleLine_accepts (nonce : Text) {parts : List LinePart}
    (hacc : acceptsStartTls s parts e = true) :
    (handleLine s nonce parts e).1 = upgrading e := by
  simp only [acceptsStartTls, Bool.and_eq_true, Option.isNone_iff_eq_none,
    Bool.not_eq_true'] at hacc
  obtain ⟨⟨⟨⟨hidle, hpending⟩, hsecure⟩, htls⟩, hverb⟩ := hacc
  cases hparse : parseCommand s.host.cases parts with
  | error msg => simp [hparse] at hverb
  | ok cmd =>
    have hstarttls : verbOf cmd.name = some (.session .starttls) := by simpa [hparse] using hverb
    simp [handleLine, hidle, hpending, handleCommand, hparse, hstarttls, dispatch, sessionCommand,
      cmdStartTls, hsecure, htls, upgrading]

theorem handleLine_rest (nonce : Text) (parts : List LinePart) (e : Engine) :
    (if acceptsStartTls s parts e then e.queued else []) ++ (handleLine s nonce parts e).1.queued =
      e.queued := by
  split_ifs with hacc
  · rw [handleLine_accepts s nonce hacc]
    exact List.append_nil _
  · obtain hkeep | ⟨hacc', -⟩ := handleLine_queued s nonce parts e
    · exact hkeep
    · exact absurd hacc' hacc

theorem resume_queued (k : Resume) (res : ImapBackendResponse) (e : Engine) :
    (resume s k res e).1.queued = e.queued := by
  have hremoval : ∀ (removed : List Nat) (e : Engine), (removalActions removed e).1.queued = e.queued := by
    intro removed e
    unfold removalActions
    split <;> rfl
  cases k with
  | select tag readWrite q =>
    simp only [resume, resumeSelect]
    split
    · split <;> rfl
    · rfl
  | append tag name =>
    simp only [resume, resumeAppend]
    split
    · split
      · rfl
      · split_ifs <;> rfl
    · rfl
  | replace tag verb dest =>
    simp only [resume, resumeReplace]
    split
    · split
      · rfl
      · exact hremoval _ _
    · rfl
  | copyMove tag verb op =>
    simp only [resume, resumeCopyMove]
    split
    · cases op with
      | copy => rfl
      | move => exact hremoval _ _
    · rfl
  | expunge tag verb =>
    simp only [resume, resumeExpunge]
    split
    · exact hremoval _ _
    · rfl
  | refresh taggedOk =>
    simp only [resume, resumeRefresh]
    split
    · split_ifs <;> rfl
    · rfl
  | refreshSync taggedOk n kws =>
    simp only [resume, resumeRefreshSync]
    split
    · rfl
    · split <;> rfl
  | _ => exact apply_queued _ e

theorem act_queued {m : Move} (hallowed : m.Allowed e)
    (hfresh : ∀ nonce parts, m = .line nonce parts → e.queued = []) :
    m.handled ++ m.discarded s e ++ (m.act s e).1.queued = e.queued ++ m.arrived := by
  cases m with
  | line nonce parts =>
    have hrest := handleLine_rest s nonce parts e
    rw [hfresh nonce parts rfl, ite_self, List.nil_append] at hrest
    simp [Move.handled, Move.discarded, Move.act, Move.arrived, hfresh nonce parts rfl, hrest]
  | enqueue parts =>
    simp only [Move.handled, Move.discarded, Move.act, Move.arrived, enqueue]
    split_ifs <;> simp
  | dequeue nonce parts =>
    obtain ⟨-, -, hhead⟩ := hallowed
    have hrest := handleLine_rest s nonce parts (unqueue parts e)
    have hqueue : e.queued = parts :: e.queued.tail := List.eq_cons_of_mem_head? hhead
    have hsame : acceptsStartTls s parts (unqueue parts e) = acceptsStartTls s parts e := rfl
    have htail : (unqueue parts e).queued = e.queued.tail := rfl
    rw [hsame, htail] at hrest
    simp only [Move.handled, Move.discarded, Move.act, Move.arrived, List.append_assoc, hrest,
      List.append_nil]
    exact hqueue.symm
  | settle =>
    simp only [Move.handled, Move.discarded, Move.act, Move.arrived, settleQueue]
    split_ifs <;> simp
  | backendResult res =>
    obtain ⟨k, hk⟩ := hallowed
    simp [Move.handled, Move.discarded, Move.act, Move.arrived, hk, resume_queued]
  | scramKeysResult keys =>
    obtain ⟨tag, session, stage, username, hp⟩ := hallowed
    simp only [Move.handled, Move.discarded, Move.act, Move.arrived, scramKeysResult, hp]
    split <;> simp
  | authResult ok =>
    obtain ⟨tag, hp⟩ := hallowed
    simp only [Move.handled, Move.discarded, Move.act, Move.arrived, hp, authAnswered]
    split_ifs <;> simp
  | idleTick =>
    simp only [Move.handled, Move.discarded, Move.act, Move.arrived, idleTick]
    split_ifs
    · simp
    · simp [apply_queued]
  | _ => simp [Move.handled, Move.discarded, Move.act, Move.arrived, tlsEstablished]

theorem history_inOrder {ms : List Moment}
    (h : History s (newEngine s s.options.secure) ms e)
    (hfresh : ∀ m ∈ ms, ∀ nonce parts, m.move = .line nonce parts → m.state.queued = []) :
    InOrder s ms e := by
  suffices horder : disposals s ms ++ e.queued = arrivals ms by
    refine ⟨horder, fun hkept => ?_, hfresh⟩
    have hsame : disposals s ms = ms.flatMap fun m => m.move.handled := by
      refine List.flatMap_congr fun m hm => ?_
      rw [hkept m hm, List.append_nil]
    rw [← hsame, horder]
  refine Trace.Linked.history (P := fun past e => disposals s past ++ e.queued = arrivals past) h
    rfl fun past m hm hallowed hpast => ?_
  rw [disposals_snoc, arrivals_snoc, ← hpast, List.append_assoc,
    act_queued s hallowed (hfresh m hm), List.append_assoc]

/-- Lines wait in the queue for an answer that drains it, or the session is over. -/
def Waits (e : Engine) : Prop := e.queued = [] ∨ e.closed = true ∨ queues e = true

def Drains (e : Engine) : Prop := e.pending = none ∨ Waits e

def authenticateWaits (cmd : ParsedCommand) : Bool :=
  match saslMechanism s (upperText s.host.cases cmd.args[0]?) with
  | none => false
  | some (.scram _ _ _) => true
  | some _ => (textArg cmd 1).isNone

def beginsSasl (nonce : Text) (parts : List LinePart) (e : Engine) : Bool :=
  beginsExchange s nonce parts e &&
    match parseCommand s.host.cases parts with
    | .error _ => false
    | .ok cmd => verbOf cmd.name = some (.session .authenticate) && authenticateWaits s cmd

/-- An AUTHENTICATE that waits is taken from the queue with lines behind it. -/
def strands (m : Moment) : Bool :=
  match m.move with
  | .dequeue nonce parts => !m.state.queued.tail.isEmpty && beginsSasl s nonce parts m.state
  | _ => false

theorem queues_backend {k : Resume} (h : e.pending = some (.backend k)) :
    queues e = true := by
  simp [queues, h]

theorem Requested.drains {r : Engine × List ImapAction} (h : Requested e r)
    (hnone : e.pending = none) : r.1.pending = none ∨ queues r.1 = true := by
  cases h with
  | nothing hpending => exact .inl (hpending.trans hnone)
  | backend req k hpending => exact .inr (queues_backend hpending)

theorem cmdLogin_drains (hnone : e.pending = none) (cmd : ParsedCommand) :
    (cmdLogin s cmd e).1.pending = none ∨ queues (cmdLogin s cmd e).1 = true := by
  unfold cmdLogin
  split_ifs
  · exact .inl hnone
  · exact .inl hnone
  · split
    · exact .inr rfl
    · exact .inl hnone

theorem handleSaslData_drains (nonce : Text) {sasl : SaslPending}
    (hmech : ∀ session stage username, sasl.mechanism ≠ .scram session stage username)
    (hnone : e.pending = none) (data : Option Text) :
    (handleSaslData s nonce sasl data e).1.pending = none ∨
      queues (handleSaslData s nonce sasl data e).1 = true := by
  unfold handleSaslData
  split
  · exact .inr rfl
  · cases data with
    | none => exact .inl hnone
    | some text =>
      dsimp only
      split
      · exact .inl hnone
      · cases decodeSaslBase64 (if text = ['='] then [] else text) with
        | none => exact .inl hnone
        | some bytes =>
          dsimp only
          cases hscram : sasl.mechanism with
          | scram session stage username => exact absurd hscram (hmech session stage username)
          | plain =>
            dsimp only
            cases parseSaslPlain bytes with
            | none => exact .inl hnone
            | some creds => exact .inr rfl
          | oauth mechanism =>
            dsimp only
            cases parseSaslOAuth mechanism (utf8Decode bytes) with
            | none => exact .inl hnone
            | some creds => exact .inr rfl

theorem cmdAuthenticate_drains (nonce : Text) (hnone : e.pending = none)
    {cmd : ParsedCommand}
    (hwaits : (e.state = .notAuthenticated && authAllowed s e && authenticateGiven s nonce cmd &&
      authenticateWaits s cmd) = false) :
    (cmdAuthenticate s nonce cmd e).1.pending = none ∨
      queues (cmdAuthenticate s nonce cmd e).1 = true := by
  cases hgiven : (e.state = .notAuthenticated && authAllowed s e && authenticateGiven s nonce cmd)
  case false =>
    have hexchange := cmdAuthenticate_exchanged s nonce cmd e
    rw [hgiven] at hexchange
    generalize cmdAuthenticate s nonce cmd e = r at hexchange ⊢
    cases hexchange with
    | same => exact .inl hnone
  case true =>
    have hno : authenticateWaits s cmd = false := by simpa [hgiven] using hwaits
    have hcond : (e.state = .notAuthenticated ∧ authAllowed s e = true) ∧
        authenticateGiven s nonce cmd = true := by
      simpa using hgiven
    unfold cmdAuthenticate
    rw [if_neg (not_not_intro hcond.1.1), hcond.1.2]
    simp only [Bool.not_true, Bool.false_eq_true, if_false]
    unfold authenticateWaits at hno
    cases hmech : saslMechanism s (upperText s.host.cases cmd.args[0]?) with
    | none => exact .inl hnone
    | some mechanism =>
      rw [hmech] at hno
      dsimp only
      split_ifs
      · exact .inl hnone
      · cases hdata : textArg cmd 1 with
        | none => cases mechanism <;> simp [hdata] at hno
        | some initial =>
          refine handleSaslData_drains s nonce ?_ hnone (some initial)
          rintro session stage username rfl
          cases hno

/-- A line taken from the queue lets the draining go on or waits for an answer, unless it is
an AUTHENTICATE that waits. -/
theorem handleLine_drains (nonce : Text) (parts : List LinePart)
    (hnone : e.pending = none) (hwaits : beginsSasl s nonce parts e = false) :
    (handleLine s nonce parts e).1.pending = none ∨
      queues (handleLine s nonce parts e).1 = true := by
  have hhandling := handleLine_handling s nonce parts e
  generalize handleLine s nonce parts e = r at hhandling ⊢
  cases hhandling with
  | idle => exact .inl hnone
  | sasl hidle hpending =>
    rw [hnone] at hpending
    cases hpending
  | refused => exact .inl hnone
  | @command cmd verb hidle hpending hparse hverb =>
    cases verb with
    | answer v => exact (apply_requested _ e).drains hnone
    | session v =>
      obtain ⟨-, htalk⟩ | rfl | rfl | ⟨rfl, -, hup, -⟩ := sessionCommand_cases s nonce v cmd e
      · exact .inl (htalk.pending.trans hnone)
      · exact cmdLogin_drains s hnone cmd
      · refine cmdAuthenticate_drains s nonce hnone ?_
        simpa [beginsSasl, beginsExchange, hidle, hparse, hverb] using hwaits
      · have hafter : (dispatch s nonce (.session .starttls) cmd e).1 = upgrading e := hup
        rw [hafter]
        exact .inl hnone

theorem drainLoop_waits (nonce : Nat → Text) {fuel : Nat}
    (hfuel : e.queued.length ≤ fuel) (hdrains : Drains e)
    (hstrand : ∀ m ∈ drainMoments s fuel nonce e, strands s m = false) :
    Waits (drainLoop s fuel nonce e).1 := by
  induction fuel generalizing nonce e with
  | zero => exact .inl (List.length_eq_zero_iff.mp (Nat.le_zero.mp hfuel))
  | succ fuel ih =>
    unfold drainLoop
    unfold drainMoments at hstrand
    cases hqueue : e.queued with
    | nil => exact .inl hqueue
    | cons parts queued =>
      rw [hqueue] at hstrand
      dsimp only at hstrand ⊢
      split_ifs with hdrain
      · refine hdrains.elim (fun hnone => ?_) id
        refine .inr (.inl ?_)
        simpa [canDrain, hnone] using hdrain
      · have hcan : e.pending = none ∧ e.closed = false := by simpa [canDrain] using hdrain
        have hunqueue : unqueue parts e =
            { e with queued := queued, queuedBytes := e.queuedBytes - lineBytes parts } := by
          rw [unqueue, hqueue]
          rfl
        rw [if_neg hdrain] at hstrand
        rw [← hunqueue]
        have hhead := hstrand _ (List.mem_cons_self ..)
        have htail : (unqueue parts e).queued = queued := by rw [hunqueue]
        refine ih (fun i => nonce (i + 1)) ?_ ?_ fun m hm => hstrand m (List.mem_cons_of_mem _ hm)
        · have hle : queued.length ≤ fuel := by
            rw [hqueue, List.length_cons] at hfuel
            omega
          obtain hkeep | ⟨-, hup⟩ := handleLine_queued s (nonce 0) parts (unqueue parts e)
          · rw [hkeep, htail]
            exact hle
          · rw [hup]
            exact Nat.zero_le _
        · have hnone : (unqueue parts e).pending = none := hcan.1
          simp only [strands, hqueue, List.tail_cons, Bool.and_eq_false_iff] at hhead
          obtain hlast | hnot := hhead
          · have hnil : queued = [] := by simpa using hlast
            obtain hkeep | ⟨-, hup⟩ := handleLine_queued s (nonce 0) parts (unqueue parts e)
            · exact .inr (.inl (hkeep.trans (htail.trans hnil)))
            · rw [hup]
              exact .inr (.inl rfl)
          · obtain hdone | hq := handleLine_drains s (nonce 0) parts hnone hnot
            · exact .inl hdone
            · exact .inr (.inr (.inr hq))

theorem settleQueue_waits (h : Waits e) : Waits (settleQueue e) := by
  unfold settleQueue
  split_ifs with hnil
  · exact .inl hnil
  · exact h

theorem answer_waits (nonce : Nat → Text) {m : Move}
    (hafter : (m.act s e).1.pending = none ∨ queues (m.act s e).1 = true)
    (hstrand : ∀ x ∈ answerMoments s nonce m e, strands s x = false) :
    Waits (drainQueued s nonce (m.act s e).1).1 := by
  refine settleQueue_waits (drainLoop_waits s nonce le_rfl ?_ fun x hx => hstrand x ?_)
  · exact hafter.imp id fun hq => .inr (.inr hq)
  · simp only [answerMoments, List.mem_append, List.mem_cons]
    exact .inl (.inr hx)

def Move.plain : Move → Bool
  | .dequeue _ _ => false
  | .backendResult _ => false
  | .authResult _ => false
  | _ => true

theorem act_waits {m : Move} (hplain : m.plain = true) (hallowed : m.Allowed e)
    (h : Waits e) : Waits (m.act s e).1 := by
  cases m with
  | greeting => exact h
  | read chunk => exact h
  | tell text => exact h
  | line nonce parts =>
    have hnil : e.queued = [] := by
      obtain hnil | hclosed | hq := h
      · exact hnil
      · simp [hallowed.1] at hclosed
      · simp [hallowed.2] at hq
    obtain hkeep | ⟨-, hup⟩ := handleLine_queued s nonce parts e
    · exact .inl (hkeep.trans hnil)
    · refine .inl ?_
      simp only [Move.act, hup, upgrading]
  | enqueue parts =>
    simp only [Move.act, enqueue]
    split_ifs
    · exact .inl rfl
    · exact .inr (.inr hallowed.2)
  | settle => exact settleQueue_waits h
  | scramKeysResult keys =>
    obtain ⟨tag, session, stage, username, hp⟩ := hallowed
    have hq : queues e = false := by simp [queues, hp]
    have hkeep : e.queued = [] ∨ e.closed = true := by simpa [Waits, hq] using h
    simp only [Move.act, scramKeysResult, hp]
    split <;> exact hkeep.imp id .inl
  | tlsEstablished => exact h
  | idleTick =>
    simp only [Move.act, idleTick]
    split_ifs with hskip
    · exact h
    · have hidle : e.pending = none ∧ e.closed = false := by
        cases hp : e.pending <;> simp_all
      have hq : queues e = false := by simp [queues, hidle.1]
      have hnil : e.queued = [] := by simpa [Waits, hq, hidle.2] using h
      exact .inl ((apply_queued _ e).trans hnil)
  | dequeue => cases hplain
  | backendResult => cases hplain
  | authResult => cases hplain

theorem eventMoments_plain (nonce : Nat → Text) (evs : List ReaderEvent) (e : Engine) :
    ∀ m ∈ eventMoments s nonce evs e, m.move.plain = true := by
  induction evs generalizing nonce e with
  | nil => simp [eventMoments]
  | cons ev evs ih =>
    intro m hm
    simp only [eventMoments, List.mem_cons] at hm
    obtain rfl | hm := hm
    · cases ev with
      | line parts =>
        simp only [eventMove]
        split_ifs <;> rfl
      | _ => rfl
    · split_ifs at hm
      · cases hm
      · exact ih _ _ m hm

theorem drainMoments_dequeue (nonce : Nat → Text) (fuel : Nat) (e : Engine) :
    ∀ m ∈ drainMoments s fuel nonce e, ∃ nonce' parts, m.move = .dequeue nonce' parts := by
  induction fuel generalizing nonce e with
  | zero => simp [drainMoments]
  | succ fuel ih =>
    intro m hm
    unfold drainMoments at hm
    split at hm
    · cases hm
    · split at hm
      · cases hm
      · obtain rfl | hm := List.mem_cons.mp hm
        · exact ⟨_, _, rfl⟩
        · exact ih _ _ m hm

theorem answerMoments_line (nonce : Nat → Text) {a : Move} (ha : a.answers ≠ none) (e : Engine)
    {m : Moment} (hm : m ∈ answerMoments s nonce a e) (nonce' : Text) (parts : List LinePart) :
    m.move ≠ .line nonce' parts := by
  simp only [answerMoments, List.mem_append, List.mem_cons, List.not_mem_nil, or_false] at hm
  rintro hmove
  obtain (rfl | hm) | rfl := hm
  · rw [show a = _ from hmove] at ha
    exact ha rfl
  · obtain ⟨_, _, hdequeue⟩ := drainMoments_dequeue s nonce _ _ m hm
    rw [hmove] at hdequeue
    cases hdequeue
  · cases hmove

theorem step_waits {i : Input} {r : Engine × List ImapAction} (h : Waits e)
    (hstep : step s i e = some r) (hstrand : ∀ m ∈ stepMoments s i e, strands s m = false) :
    (∀ m ∈ stepMoments s i e, ∀ nonce parts, m.move = .line nonce parts → m.state.queued = []) ∧
      Waits r.1 := by
  have hhistory := (step_history s hstep).1
  by_cases hplain : ∀ m ∈ stepMoments s i e, m.move.plain = true
  · have hwaits := hhistory.invariant h fun m hm hallowed hw => act_waits s (hplain m hm) hallowed hw
    refine ⟨fun m hm nonce parts hmove => ?_, hwaits.2⟩
    obtain ⟨hallowed, hw⟩ := hwaits.1 m hm
    rw [hmove] at hallowed
    obtain hnil | hclosed | hq := hw
    · exact hnil
    · simp [hallowed.1] at hclosed
    · simp [hallowed.2] at hq
  · obtain ⟨c, nonce⟩ := i
    cases c with
    | backendResult res =>
      obtain ⟨k, hk, rfl⟩ := backendResult_spec s hstep
      have hact : (Move.backendResult res).act s e = resume s k res { e with pending := none } := by
        simp only [Move.act, hk]
      refine ⟨fun m hm nonce' parts hmove => ?_, ?_⟩
      · exact absurd hmove (answerMoments_line s nonce (by simp [Move.answers]) e hm nonce' parts)
      · have hafter := (resume_requested s k res { e with pending := none }).drains rfl
        rw [← hact] at hafter ⊢
        exact answer_waits s nonce hafter hstrand
    | authResult ok =>
      obtain ⟨tag, htag, rfl⟩ := authResult_spec s hstep
      have hact : (Move.authResult ok).act s e = authAnswered s tag ok { e with pending := none } := by
        simp only [Move.act, htag]
      refine ⟨fun m hm nonce' parts hmove => ?_, ?_⟩
      · exact absurd hmove (answerMoments_line s nonce (by simp [Move.answers]) e hm nonce' parts)
      · have hafter : (authAnswered s tag ok { e with pending := none }).1.pending = none := by
          unfold authAnswered
          split_ifs <;> rfl
        rw [← hact] at hafter ⊢
        exact answer_waits s nonce (.inl hafter) hstrand
    | feed chunk =>
      refine absurd (fun m hm => ?_) hplain
      simp only [stepMoments] at hm
      split_ifs at hm
      · cases hm
      · obtain rfl | hm := List.mem_cons.mp hm
        · rfl
        · exact eventMoments_plain s _ _ _ m hm
    | _ =>
      refine absurd (fun m hm => ?_) hplain
      rw [List.mem_singleton.mp hm]
      rfl

theorem run_waits {is : List Input} {e e' : Engine} {acts : List (List ImapAction)} (h : Waits e)
    (hrun : run s e is = some (e', acts)) (hstrand : ∀ m ∈ runMoments s e is, strands s m = false) :
    (∀ m ∈ runMoments s e is, ∀ nonce parts, m.move = .line nonce parts → m.state.queued = []) ∧
      Waits e' := by
  induction is generalizing e acts with
  | nil =>
    cases hrun
    exact ⟨by simp [runMoments], h⟩
  | cons i is ih =>
    simp only [run] at hrun
    cases hstep : step s i e with
    | none => simp [hstep] at hrun
    | some r =>
      simp only [hstep, Option.map_eq_some_iff, Prod.mk.injEq] at hrun
      obtain ⟨⟨e₂, acts₂⟩, hrest, rfl, rfl⟩ := hrun
      simp only [runMoments, hstep, List.mem_append] at hstrand ⊢
      have hcall := step_waits s h hstep fun m hm => hstrand m (.inl hm)
      have hlater := ih hcall.2 hrest fun m hm => hstrand m (.inr hm)
      exact ⟨fun m hm => hm.elim (hcall.1 m) (hlater.1 m), hlater.2⟩

end

/-- In a run in which no AUTHENTICATE that waits is taken from the queue with lines behind
it, the lines are dealt with in the order they come, at every moment of the run; and after
every run lines stay queued only for an answer that drains them or because the session is
over. -/
theorem lines_in_order (s : Setup) (is : List Input) (e : Engine)
    (acts : List (List ImapAction))
    (hrun : run s (newEngine s s.options.secure) is = some (e, acts))
    (hstrand : ∀ m ∈ runMoments s (newEngine s s.options.secure) is, strands s m = false) :
    (∀ ms e', ms <+: runMoments s (newEngine s s.options.secure) is →
        History s (newEngine s s.options.secure) ms e' → InOrder s ms e') ∧
      Waits e := by
  have hnew : Waits (newEngine s s.options.secure) := .inl rfl
  have hwaits := run_waits s hnew hrun hstrand
  refine ⟨fun ms e' hinit hms => ?_, hwaits.2⟩
  exact history_inOrder s hms fun m hm => hwaits.1 m (hinit.subset hm)

/-- A failed LOGIN with an AUTHENTICATE and a NOOP behind it, and a line that comes
afterwards. -/
def strandedRun : List Input :=
  [⟨.feed (wireToBytes "a LOGIN u p\r\nb AUTHENTICATE PLAIN\r\nc NOOP\r\n"), fun _ => []⟩,
    ⟨.authResult false, fun _ => []⟩, ⟨.feed (wireToBytes "d NOOP\r\n"), fun _ => []⟩]

/-- The last line is taken for the client's data while the NOOP stays in the queue. -/
theorem lines_in_order_fails :
    ¬ ∀ (s : Setup) (is : List Input) (e : Engine) (acts : List (List ImapAction)),
      run s (newEngine s s.options.secure) is = some (e, acts) →
        ∀ ms e', ms <+: runMoments s (newEngine s s.options.secure) is →
          History s (newEngine s s.options.secure) ms e' → InOrder s ms e' := by
  intro h
  have hends : (run bareSetup (newEngine bareSetup false) strandedRun).any (fun r =>
      disposals bareSetup (runMoments bareSetup (newEngine bareSetup false) strandedRun) ++
        r.1.queued ≠ arrivals (runMoments bareSetup (newEngine bareSetup false) strandedRun)) =
      true := by
    decide +kernel
  obtain ⟨⟨e, acts⟩, hrun, hne⟩ := (Option.any_eq_true _ _).mp hends
  have horder := (h _ _ e acts hrun _ e (List.prefix_refl _) (run_history _ hrun).1).order
  exact absurd horder (of_decide_eq_true hne)

def pipelinedRun : List Input :=
  [⟨.feed (wireToBytes "a LOGIN u p\r\nb AUTHENTICATE PLAIN AHUAcA==\r\nc NOOP\r\n"), fun _ => []⟩,
    ⟨.authResult false, fun _ => []⟩, ⟨.authResult true, fun _ => []⟩]

theorem lines_in_order_pipelined :
    ∃ e acts, run bareSetup (newEngine bareSetup false) pipelinedRun = some (e, acts) ∧
      (∀ ms e', ms <+: runMoments bareSetup (newEngine bareSetup false) pipelinedRun →
        History bareSetup (newEngine bareSetup false) ms e' → InOrder bareSetup ms e') ∧
      Waits e := by
  have hsome : (run bareSetup (newEngine bareSetup false) pipelinedRun).isSome = true := by
    decide +kernel
  obtain ⟨⟨e, acts⟩, hrun⟩ := Option.isSome_iff_exists.mp hsome
  exact ⟨e, acts, hrun, lines_in_order bareSetup pipelinedRun e acts hrun (by decide +kernel)⟩

end Ionosphere.Imap
