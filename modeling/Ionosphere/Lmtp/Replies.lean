import Ionosphere.Lmtp.DataFraming

/-! The replies to a message. LMTP answers the end of a message with one reply for each
recipient that was accepted, in the order of their RCPT commands; a message over the size
limit is refused by a single reply. -/
namespace Ionosphere.Lmtp

open Ionosphere.Js Ionosphere.Core Ionosphere.Lib

variable {m : Moment} {rcpts : List Text}

section

variable (s : Setup)

/-- The recipient that is being verified and those accepted since MAIL. -/
structure Envelope where
  asked : Option Text := none
  accepted : List Text := []

def Envelope.next (v : Envelope) (m : Moment) : Envelope :=
  match m.move with
  | .line _ _ =>
    match m.actions s with
    | [.verifyRcpt rcpt] => { v with asked := some rcpt }
    | [.reply text] => if text = "250 2.1.0 OK".toList then {} else v
    | _ => v
  | .rcptResult .accepted => { accepted := v.accepted ++ v.asked.toList }
  | .rcptResult (.refused _ _ _) => { v with asked := none }
  | _ => v

def envelope (ms : List Moment) : Envelope := ms.foldl (Envelope.next s) {}

theorem envelope_append (past : List Moment) (m : Moment) :
    envelope s (past ++ [m]) = (envelope s past).next s m := List.foldl_concat ..

def Move.isDeliverResult : Move → Bool
  | .deliverResult _ => true
  | _ => false

/-- Nothing is answered; the greeting and the ends of a session over its limits are no
replies to a message. -/
def Moment.quiet (m : Moment) : Prop :=
  match m.move with
  | .greeting | .pending | .errors _ => True
  | _ => m.actions s = []

/-- The message that ends at `d` is answered for each of `rcpts`, at once or when it has been
delivered. -/
structure Replied (rcpts : List Text) (d : Moment) (later : List Moment) : Prop where
  refused : (∀ env, .deliver env ∉ d.actions s) →
    ∃ texts : List Text, d.actions s = texts.map .reply ∧ texts.length = rcpts.length
  delivered : ∀ env, .deliver env ∈ d.actions s →
    d.actions s = [.deliver env] ∧ env.rcptTo = rcpts ∧
      ∀ (before : List Moment) (x : Moment) after results, later = before ++ x :: after →
        (∀ n ∈ before, n.move.isDeliverResult = false) → x.move = .deliverResult results →
          (∀ n ∈ before, n.quiet s) ∧ x.actions s = rcpts.map (deliveryReply results)

/-- If the content of `stream` ends, nothing is answered before its end and the end is
answered for each of `rcpts`. -/
def MessageAnswered (rcpts : List Text) (stream : Bytes) (rest : List Moment) : Prop :=
  (Lines.content CR LF [DOT] stream).isSome →
    ∃ (before : List Moment) (d : Moment) (later : List Moment), rest = before ++ d :: later ∧
      (∀ n ∈ before, n.Inside s) ∧ d.ends = true ∧
      Replied s rcpts d later

/-- If the content of `stream` ends, none of its unfinished lines was thrown away, and if it
is too large there is one recipient. -/
def Answerable (rcpts : List Text) (stream : Bytes) (rest : List Moment) : Prop :=
  ∀ lines after, Lines.content CR LF [DOT] stream = some (lines, after) →
    NoCut rest ∧ (s.options.maxSizeBytes < dataSize (lines.map unstuff) → rcpts.length = 1)

structure Sealed (v : Envelope) (e : Engine) : Prop where
  empty : e.mailFrom = none → e.rcptTo = []
  accepted : e.mailFrom ≠ none → e.rcptTo = v.accepted
  asked : ∀ rcpt, e.pendingRcpt = some rcpt → v.asked = some rcpt ∧ e.awaiting = some .rcpt
  awaiting : e.awaiting ≠ none → e.mailFrom ≠ none
  inData : e.inData = true → e.mailFrom ≠ none ∧ e.awaiting = none

variable {s} {v : Envelope} {e e' : Engine}

theorem sealed_newEngine : Sealed {} {} :=
  ⟨fun _ => rfl, fun h => absurd rfl h, fun _ h => (by cases h), fun h => absurd rfl h,
    fun h => (by cases h)⟩

theorem Sealed.reset (v : Envelope) (hwait : e.awaiting = none) : Sealed v (resetTransaction e) :=
  ⟨fun _ => rfl, fun h => absurd rfl h, fun _ h => (by cases h), fun h => absurd hwait h,
    fun h => (by cases h)⟩

theorem Sealed.pendingRcpt (h : Sealed v e) (hwait : e.awaiting = none) : e.pendingRcpt = none := by
  cases hrcpt : e.pendingRcpt with
  | none => rfl
  | some rcpt =>
    have hasked := (h.asked rcpt hrcpt).2
    rw [hwait] at hasked
    cases hasked

theorem Sealed.command {text rest : Bytes} (h : Sealed v e) (hwait : e.awaiting = none)
    (hcommand : e.inData = false) :
    Sealed (v.next s ⟨e, .line text rest⟩) ((Move.line text rest).act s e).1 := by
  have hact : (Move.line text rest).act s e = handleCommand s text { e with buffer := rest } :=
    if_neg (by simp [hcommand])
  have heffect := handleCommand_effect s text { e with buffer := rest }
  have hnobody := h.pendingRcpt hwait
  have hcommand' : e.inData ≠ true := by simp [hcommand]
  simp only [Envelope.next, Moment.actions, hact]
  generalize handleCommand s text { e with buffer := rest } = r at heffect ⊢
  cases heffect with
  | greet name acts hacts hlines => exact Sealed.reset _ hwait
  | mail addr hfree =>
    have hfree' : e.mailFrom = none := hfree
    refine ⟨fun hnone => (by cases hnone), fun _ => ?_, fun rcpt hrcpt => ?_, fun _ => by simp,
      fun hin => absurd hin hcommand'⟩
    · simpa using h.empty hfree'
    · have hrcpt' : e.pendingRcpt = some rcpt := hrcpt
      rw [hnobody] at hrcpt'
      cases hrcpt'
  | rcpt addr hfrom =>
    refine ⟨fun hnone => absurd hnone hfrom, fun _ => h.accepted hfrom, fun rcpt hrcpt => ⟨hrcpt, rfl⟩,
      fun _ => hfrom, fun hin => absurd hin hcommand'⟩
  | data hfrom hrcpt =>
    have hkeep : (if "354 end data with <CR><LF>.<CR><LF>".toList = "250 2.1.0 OK".toList then
        ({} : Envelope) else v) = v := if_neg (by decide)
    dsimp only
    rw [hkeep]
    exact ⟨h.empty, h.accepted, h.asked, h.awaiting, fun _ => ⟨hfrom, hwait⟩⟩
  | reset => exact Sealed.reset _ hwait
  | quit => exact ⟨h.empty, h.accepted, h.asked, h.awaiting, fun hin => absurd hin hcommand'⟩
  | aside text hmail hno =>
    dsimp only
    rw [if_neg hmail]
    exact ⟨h.empty, h.accepted, h.asked, h.awaiting, fun hin => absurd hin hcommand'⟩

theorem Sealed.dataLine {text rest : Bytes} (h : Sealed v e) (hwait : e.awaiting = none)
    (hdata : e.inData = true) :
    Sealed (v.next s ⟨e, .line text rest⟩) ((Move.line text rest).act s e).1 := by
  have hact : (Move.line text rest).act s e = handleDataLine s text { e with buffer := rest } :=
    if_pos hdata
  simp only [Envelope.next, Moment.actions, hact, handleDataLine]
  split_ifs
  · exact Sealed.reset _ hwait
  · exact ⟨h.empty, h.accepted, fun rcpt hrcpt => by simp [h.pendingRcpt hwait] at hrcpt,
      fun _ => (h.inData hdata).1, fun hin => by simp at hin⟩
  · exact ⟨h.empty, h.accepted, h.asked, h.awaiting, h.inData⟩

theorem Sealed.rcptGiven {outcome : RcptOutcome} (h : Sealed v e)
    (hallowed : (Move.rcptResult outcome).Allowed e) :
    Sealed (v.next s ⟨e, .rcptResult outcome⟩) ((Move.rcptResult outcome).act s e).1 := by
  obtain ⟨hwait, hsome⟩ := hallowed
  obtain ⟨rcpt, hrcpt⟩ := Option.isSome_iff_exists.mp hsome
  have hfrom : e.mailFrom ≠ none := h.awaiting (by simp [hwait])
  have hdata : e.inData ≠ true := by
    intro hin
    rw [(h.inData hin).2] at hwait
    cases hwait
  have hasked := (h.asked rcpt hrcpt).1
  simp only [Move.act, hrcpt]
  cases outcome with
  | accepted =>
    refine ⟨fun hnone => absurd hnone hfrom, fun _ => ?_, fun _ hnone => (by cases hnone),
      fun _ => hfrom, fun hin => absurd hin hdata⟩
    simp [Lmtp.rcptGiven, Envelope.next, hasked, h.accepted hfrom]
  | refused code enhanced message =>
    exact ⟨fun hnone => absurd hnone hfrom, fun _ => h.accepted hfrom, fun _ hnone => (by cases hnone),
      fun _ => hfrom, fun hin => absurd hin hdata⟩

theorem guardPending_cases (e : Engine) :
    guardPending e = (e, []) ∨ guardPending e = ({ e with buffer := [], closed := true },
      [.reply "421 4.7.0 too much pipelined data, closing connection".toList, .close]) := by
  unfold guardPending
  split_ifs
  · exact .inr rfl
  · exact .inl rfl

theorem guardErrors_frame (count : Nat) (e : Engine) :
    ∃ buffer closed errorCount, (guardErrors count e).1 =
      { e with buffer := buffer, closed := closed, errorCount := errorCount } := by
  unfold guardErrors
  split_ifs
  · exact ⟨e.buffer, e.closed, e.errorCount, rfl⟩
  · exact ⟨e.buffer, e.closed, _, rfl⟩
  · exact ⟨[], true, _, rfl⟩

theorem guards_frame (m : Move) (e : Engine)
    (hm : m.isDeliverResult = false) (hline : ∀ text rest, m ≠ .line text rest)
    (hrcpt : ∀ outcome, m ≠ .rcptResult outcome) :
    ∃ buffer closed errorCount, (m.act s e).1 =
      { e with buffer := buffer, closed := closed, errorCount := errorCount } := by
  cases m with
  | greeting => exact ⟨e.buffer, e.closed, e.errorCount, rfl⟩
  | read chunk => exact ⟨e.buffer ++ chunk, e.closed, e.errorCount, rfl⟩
  | line text rest => exact absurd rfl (hline text rest)
  | unfinished =>
    simp only [Move.act, guardLine]
    split_ifs
    · exact ⟨[], e.closed, e.errorCount, rfl⟩
    · exact ⟨e.buffer, e.closed, e.errorCount, rfl⟩
  | pending =>
    simp only [Move.act]
    rcases guardPending_cases e with hsame | hcut
    · rw [hsame]
      exact ⟨e.buffer, e.closed, e.errorCount, rfl⟩
    · rw [hcut]
      exact ⟨[], true, e.errorCount, rfl⟩
  | errors count => exact guardErrors_frame count e
  | rcptResult outcome => exact absurd rfl (hrcpt outcome)
  | deliverResult results => cases hm

theorem Sealed.act (h : Sealed v m.state) (hallowed : m.move.Allowed m.state) :
    Sealed (v.next s m) (m.move.act s m.state).1 := by
  obtain ⟨e, move⟩ := m
  dsimp only at h hallowed ⊢
  have hframe : move.isDeliverResult = false → (∀ text rest, move ≠ .line text rest) →
      (∀ outcome, move ≠ .rcptResult outcome) → v.next s ⟨e, move⟩ = v →
      Sealed (v.next s ⟨e, move⟩) (move.act s e).1 := by
    intro hm hline hrcpt hsame
    obtain ⟨buffer, closed, errorCount, hact⟩ := guards_frame (s := s) move e hm hline hrcpt
    rw [hact, hsame]
    exact ⟨h.empty, h.accepted, h.asked, h.awaiting, h.inData⟩
  cases move with
  | line text rest =>
    cases hdata : e.inData with
    | true => exact h.dataLine hallowed.1 hdata
    | false => exact h.command hallowed.1 hdata
  | rcptResult outcome => exact h.rcptGiven hallowed
  | deliverResult results => exact Sealed.reset _ rfl
  | _ => exact hframe rfl (by simp) (by simp) rfl

theorem sealed_of_history {ms : List Moment} (h : History s {} ms e') :
    Sealed (envelope s ms) e' := by
  refine Trace.Linked.history (P := fun past e => Sealed (envelope s past) e) h sealed_newEngine
    fun past m _ hallowed hpast => ?_
  rw [envelope_append]
  exact hpast.act hallowed

theorem Moment.Inside.rcptTo (h : m.Inside s) (hallowed : m.move.Allowed m.state)
    (hwait : m.state.awaiting = none) : (m.move.act s m.state).1.rcptTo = m.state.rcptTo := by
  obtain ⟨e, move⟩ := m
  have hdata : e.inData = true := h.inData
  have hends := h.ends
  dsimp only at hallowed hwait ⊢
  have hframe : move.isDeliverResult = false → (∀ text rest, move ≠ .line text rest) →
      (∀ outcome, move ≠ .rcptResult outcome) → (move.act s e).1.rcptTo = e.rcptTo := by
    intro hm hline hrcpt
    obtain ⟨buffer, closed, errorCount, hact⟩ := guards_frame (s := s) move e hm hline hrcpt
    rw [hact]
  cases move with
  | line text rest =>
    have htext : text ≠ [DOT] := by simpa [Moment.ends, hdata] using hends
    simp [Move.act, handleInput, hdata, handleDataLine, htext]
  | rcptResult outcome =>
    have hrcpt : e.awaiting = some .rcpt := hallowed.1
    rw [hwait] at hrcpt
    cases hrcpt
  | deliverResult results =>
    have hdeliver : e.awaiting = some .deliver := hallowed
    rw [hwait] at hdeliver
    cases hdeliver
  | _ => exact hframe rfl (by simp) (by simp)

theorem inside_rcptTo {ms : List Moment} (h : History s e ms e') (hin : ∀ n ∈ ms, n.Inside s)
    (hwait : ∀ n ∈ ms, n.state.awaiting = none) : e'.rcptTo = e.rcptTo := by
  refine (Trace.Linked.invariant (P := fun x => x.rcptTo = e.rcptTo) h rfl fun m hm hallowed hsame => ?_).2
  rw [(hin m hm).rcptTo hallowed (hwait m hm), hsame]

theorem delivering (hallowed : m.move.Allowed m.state)
    (hm : m.move.isDeliverResult = false)
    (h : m.state.awaiting = some .deliver ∧ m.state.rcptTo = rcpts) :
    ((m.move.act s m.state).1.awaiting = some .deliver ∧ (m.move.act s m.state).1.rcptTo = rcpts) ∧
      m.quiet s := by
  obtain ⟨e, move⟩ := m
  dsimp only at h hallowed hm ⊢
  have hframe : (∀ text rest, move ≠ .line text rest) → (∀ outcome, move ≠ .rcptResult outcome) →
      (move.act s e).1.awaiting = some .deliver ∧ (move.act s e).1.rcptTo = rcpts := by
    intro hline hrcpt
    obtain ⟨buffer, closed, errorCount, hact⟩ := guards_frame (s := s) move e hm hline hrcpt
    rw [hact]
    exact h
  cases move with
  | greeting => exact ⟨hframe (by simp) (by simp), trivial⟩
  | read chunk => exact ⟨hframe (by simp) (by simp), rfl⟩
  | pending => exact ⟨hframe (by simp) (by simp), trivial⟩
  | errors count => exact ⟨hframe (by simp) (by simp), trivial⟩
  | line text rest =>
    have hnone : e.awaiting = none := hallowed.1
    rw [hnone] at h
    cases h.1
  | unfinished =>
    have hnone : e.awaiting = none := hallowed.1
    rw [hnone] at h
    cases h.1
  | rcptResult outcome =>
    have hrcpt : e.awaiting = some .rcpt := hallowed.1
    rw [hrcpt] at h
    cases h.1
  | deliverResult results => cases hm

theorem delivered_replies {ms before after : List Moment} {x : Moment}
    {results : List LmtpDelivery} (h : History s e ms e') (hms : ms = before ++ x :: after)
    (hwait : e.awaiting = some .deliver ∧ e.rcptTo = rcpts)
    (hbefore : ∀ n ∈ before, n.move.isDeliverResult = false) (hx : x.move = .deliverResult results) :
    (∀ n ∈ before, n.quiet s) ∧ x.actions s = rcpts.map (deliveryReply results) := by
  rw [hms] at h
  obtain ⟨e₂, hfirst, hlast⟩ := Trace.Linked.split h
  obtain ⟨hstates, hend⟩ := Trace.Linked.invariant
    (P := fun x => x.awaiting = some .deliver ∧ x.rcptTo = rcpts) hfirst hwait
    fun n hn hallowed hstate => (delivering hallowed (hbefore n hn) hstate).1
  refine ⟨fun n hn => (delivering (hstates n hn).1 (hbefore n hn) (hstates n hn).2).2, ?_⟩
  cases hlast with
  | cons hallowed _ =>
    have hmove : _ = Move.deliverResult results := hx
    rw [Moment.actions, hmove]
    dsimp only [Move.act, deliveryGiven]
    rw [hend.2]

theorem ends_awaiting {d : Moment} {lines : List Bytes} (hends : d.ends = true)
    (hin : Storing s lines d.state) (hfits : dataSize (lines.map unstuff) ≤ s.options.maxSizeBytes) :
    (d.move.act s d.state).1.awaiting = some .deliver ∧
      (d.move.act s d.state).1.rcptTo = d.state.rcptTo := by
  have hover : ¬ s.options.maxSizeBytes < dataSize (lines.map unstuff) := by omega
  obtain ⟨e, move⟩ := d
  cases move with
  | line text rest =>
    have htext : text = [DOT] := by
      simp only [Moment.ends, Bool.and_eq_true, decide_eq_true_eq] at hends
      exact hends.2
    have hdata : e.inData = true := hin.inData
    have hfit : e.dataOverflow = false := by
      have hsize := hin.dataOverflow
      simpa [hover] using hsize
    simp [Move.act, handleInput, hdata, handleDataLine, htext, hfit]
  | _ => cases hends

theorem replied_of_storing {d : Moment} {later : List Moment} {lines : List Bytes}
    (h : History s (d.move.act s d.state).1 later e') (hends : d.ends = true)
    (hin : Storing s lines d.state) (hrcpts : d.state.rcptTo = rcpts) :
    Replied s rcpts d later ↔
      (s.options.maxSizeBytes < dataSize (lines.map unstuff) → rcpts.length = 1) := by
  have hacts := ends_actions hends hin
  constructor
  · intro hreplied hlarge
    rw [if_neg (by omega)] at hacts
    obtain ⟨texts, htexts, hlen⟩ := hreplied.refused (by simp [hacts])
    have hone := congrArg List.length (hacts.symm.trans htexts)
    rw [List.length_map] at hone
    rw [← hlen, ← hone]
    rfl
  · intro hone
    by_cases hfits : dataSize (lines.map unstuff) ≤ s.options.maxSizeBytes
    · rw [if_pos hfits] at hacts
      refine ⟨fun hno => ?_, fun env henv => ?_⟩
      · exact absurd (by simp [hacts]) (hno (deliverEnv s d.state))
      · have hsame : env = deliverEnv s d.state := by simpa [hacts] using henv
        rw [hsame]
        refine ⟨hacts, hrcpts, fun before x after results hlater hbefore hx => ?_⟩
        obtain ⟨hwait, hkept⟩ := ends_awaiting hends hin hfits
        exact delivered_replies h hlater ⟨hwait, hkept.trans hrcpts⟩ hbefore hx
    · rw [if_neg hfits] at hacts
      refine ⟨fun _ => ⟨["552 5.3.4 message too large".toList], hacts, ?_⟩, fun env henv => ?_⟩
      · rw [hone (by omega)]
        rfl
      · simp [hacts] at henv

theorem accepted_of_data {past : List Moment} (hpast : History s {} past m.state)
    (hallowed : m.move.Allowed m.state) (hdata : m.acceptsData s = true) :
    (m.move.act s m.state).1.rcptTo = (envelope s past).accepted := by
  have hsealed := (sealed_of_history hpast).act (s := s) hallowed
  have hin := (storing_of_acceptsData hallowed hdata).1.inData
  rw [hsealed.accepted (hsealed.inData hin).1]
  have hreply : (envelope s past).next s m = envelope s past := by
    obtain ⟨e, move⟩ := m
    cases move with
    | line text rest =>
      simp only [Moment.acceptsData, Bool.and_eq_true, decide_eq_true_eq] at hdata
      simp only [Envelope.next, hdata.2]
      exact if_neg (by decide)
    | _ => cases hdata
  rw [hreply]

theorem accepted_at_end {past before later : List Moment} {m d : Moment}
    (h : History s {} (past ++ m :: (before ++ d :: later)) e') (hdata : m.acceptsData s = true)
    (hinside : ∀ n ∈ before, n.Inside s) :
    d.state.rcptTo = (envelope s past).accepted ∧
      History s (d.move.act s d.state).1 later e' := by
  have hwait : ∀ n ∈ before, n.state.awaiting = none := by
    intro n hn
    obtain ⟨b₁, b₂, rfl⟩ := List.append_of_mem hn
    have hshape : past ++ m :: (b₁ ++ n :: b₂ ++ d :: later) =
        (past ++ m :: b₁) ++ n :: (b₂ ++ d :: later) := by simp
    rw [hshape] at h
    obtain ⟨e₂, hfirst, hlast⟩ := Trace.Linked.split h
    cases hlast with
    | cons _ _ => exact ((sealed_of_history hfirst).inData (hinside _ hn).inData).2
  obtain ⟨e₁, hpast, hlast⟩ := Trace.Linked.split h
  cases hlast with
  | cons hallowed hrest =>
    obtain ⟨e₂, hmiddle, hend⟩ := Trace.Linked.split hrest
    cases hend with
    | cons _ hlater =>
      refine ⟨?_, hlater⟩
      exact (inside_rcptTo hmiddle hinside hwait).trans (accepted_of_data hpast hallowed hdata)

end

/-- In every run, every accepted DATA whose content ends is answered for each recipient of
its transaction exactly if no unfinished line of the content was thrown away and a message
over the size limit has one recipient. -/
theorem replies_per_recipient (s : Setup) (cs : List Call) (e' : Engine)
    (acts : List (List LmtpAction)) (past rest : List Moment) (m : Moment)
    (hrun : run s {} cs = some (e', acts)) (hsplit : runMoments s {} cs = past ++ m :: rest)
    (hdata : m.acceptsData s = true) :
    MessageAnswered s (envelope s past).accepted (m.behind ++ fed rest) rest ↔
      Answerable s (envelope s past).accepted (m.behind ++ fed rest) rest := by
  obtain ⟨⟨hhistory, -⟩, hsettled⟩ := run_history s (settled_of_cut rfl) hrun
  rw [hsplit] at hhistory
  have hstored : NoCut rest → Stored s [] (m.behind ++ fed rest) rest e' := by
    obtain ⟨e, -, hfrom⟩ := Trace.Linked.split hhistory
    cases hfrom with
    | cons hallowed hrest =>
      obtain ⟨hstoring, hbuffer⟩ := storing_of_acceptsData hallowed hdata
      rw [← hbuffer]
      exact stored_of_history hrest hsettled hstoring
  constructor
  · intro hanswered lines after hcontent
    obtain ⟨before, d, later, rfl, hinside, hends, hreplied⟩ := hanswered (by simp [hcontent])
    have hcut : NoCut (before ++ d :: later) := .of_inside hinside hends
    have hstored := hstored hcut
    unfold Stored at hstored
    rw [hcontent] at hstored
    obtain ⟨before', d', later', hrest', hinside', hends', -, hin⟩ := hstored
    obtain ⟨-, rfl, -⟩ := Trace.first_unique (P := fun n : Moment => n.ends = true) hrest' hends
      hends' (fun n hn => by simp [(hinside n hn).ends]) fun n hn => by simp [(hinside' n hn).ends]
    rw [List.nil_append] at hin
    obtain ⟨hrcpts, hlater⟩ := accepted_at_end hhistory hdata hinside
    exact ⟨hcut, (replied_of_storing hlater hends hin hrcpts).mp hreplied⟩
  · intro hanswerable hsome
    obtain ⟨⟨lines, after⟩, hcontent⟩ := Option.isSome_iff_exists.mp hsome
    obtain ⟨hcut, hone⟩ := hanswerable lines after hcontent
    have hstored := hstored hcut
    unfold Stored at hstored
    rw [hcontent] at hstored
    obtain ⟨before, d, later, rfl, hinside, hends, -, hin⟩ := hstored
    rw [List.nil_append] at hin
    obtain ⟨hrcpts, hlater⟩ := accepted_at_end hhistory hdata hinside
    exact ⟨before, d, later, rfl, hinside, hends,
      (replied_of_storing hlater hends hin hrcpts).mpr hone⟩

def smallSetup : Setup :=
  { cases := ⟨id, id⟩, options := { hostname := "mx".toList, maxSizeBytes := 10 } }

def largeMessage : List Call :=
  [.feed (wire "LHLO c\r\nMAIL FROM:<a@b>\r\nRCPT TO:<u@mx>\r\n"), .rcptResult .accepted,
    .feed (wire "RCPT TO:<v@mx>\r\n"), .rcptResult .accepted,
    .feed (wire "DATA\r\n0123456789ab\r\n.\r\n")]

/-- One reply for two recipients. -/
theorem replies_per_recipient_fails :
    ¬ ∀ (s : Setup) (cs : List Call) (e' : Engine) (acts : List (List LmtpAction))
      (past rest : List Moment) (m : Moment), run s {} cs = some (e', acts) →
      runMoments s {} cs = past ++ m :: rest → m.acceptsData s = true →
      MessageAnswered s (envelope s past).accepted (m.behind ++ fed rest) rest := by
  intro h
  have hsome : (run smallSetup {} largeMessage).isSome = true := by decide +kernel
  obtain ⟨⟨e', acts⟩, hrun⟩ := Option.isSome_iff_exists.mp hsome
  have hcheck : checkData smallSetup largeMessage (fun past m rest =>
      (Lines.content CR LF [DOT] (m.behind ++ fed rest)).isSome &&
        decide ((envelope smallSetup past).accepted.length = 2) &&
        rest.all fun n => !n.ends ||
          decide (n.actions smallSetup = [.reply "552 5.3.4 message too large".toList])) = true := by
    decide +kernel
  obtain ⟨past, m, rest, hsplit, hdata, hchecked⟩ := exists_of_checkData hcheck
  simp only [Bool.and_eq_true, decide_eq_true_eq] at hchecked
  obtain ⟨⟨hcontent, htwo⟩, hends⟩ := hchecked
  obtain ⟨before, d, later, hrest, -, hd, hreplied⟩ :=
    h smallSetup largeMessage e' acts past rest m hrun hsplit hdata hcontent
  have hacts : d.actions smallSetup = [.reply "552 5.3.4 message too large".toList] := by
    have hor := List.all_eq_true.mp hends d (by simp [hrest])
    rw [hd, Bool.not_true, Bool.false_or] at hor
    exact of_decide_eq_true hor
  obtain ⟨texts, htexts, hlen⟩ := hreplied.refused (by simp [hacts])
  have hone := congrArg List.length (hacts.symm.trans htexts)
  rw [List.length_map, hlen, htwo] at hone
  cases hone

/-- Two recipients, a message that fits and results in another order. -/
def smallMessage : List Call :=
  [.feed (wire "LHLO c\r\nMAIL FROM:<a@b>\r\nRCPT TO:<u@mx>\r\n"), .rcptResult .accepted,
    .feed (wire "RCPT TO:<v@mx>\r\n"), .rcptResult .accepted,
    .feed (wire "DATA\r\nhi\r\n.\r\n"),
    .deliverResult [⟨"v@mx".toList, true, 250, none, "stored".toList⟩]]

theorem replies_per_recipient_reordered :
    ∃ (e' : Engine) (acts : List (List LmtpAction)) (past rest : List Moment) (m : Moment),
      run smallSetup {} smallMessage = some (e', acts) ∧
      runMoments smallSetup {} smallMessage = past ++ m :: rest ∧
      m.acceptsData smallSetup = true ∧ (envelope smallSetup past).accepted.length = 2 ∧
      MessageAnswered smallSetup (envelope smallSetup past).accepted (m.behind ++ fed rest) rest := by
  have hsome : (run smallSetup {} smallMessage).isSome = true := by decide +kernel
  obtain ⟨⟨e', acts⟩, hrun⟩ := Option.isSome_iff_exists.mp hsome
  have hcheck : checkData smallSetup smallMessage (fun past m rest =>
      decide (Lines.content CR LF [DOT] (m.behind ++ fed rest) = some ([wire "hi"], [])) &&
        decide ((envelope smallSetup past).accepted.length = 2) &&
        rest.all fun n => !n.cuts) = true := by
    decide +kernel
  obtain ⟨past, m, rest, hsplit, hdata, hchecked⟩ := exists_of_checkData hcheck
  simp only [Bool.and_eq_true, decide_eq_true_eq] at hchecked
  obtain ⟨⟨hcontent, htwo⟩, hcuts⟩ := hchecked
  refine ⟨e', acts, past, rest, m, hrun, hsplit, hdata, htwo, ?_⟩
  rw [replies_per_recipient smallSetup smallMessage e' acts past rest m hrun hsplit hdata]
  intro lines after hlines
  obtain ⟨rfl, -⟩ := Prod.mk.inj (Option.some.inj (hcontent.symm.trans hlines))
  refine ⟨noCut_of_all hcuts, fun hlarge => ?_⟩
  exact absurd hlarge (by decide)

end Ionosphere.Lmtp
