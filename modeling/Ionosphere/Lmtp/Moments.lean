import Ionosphere.Lib.Trace
import Ionosphere.Lmtp.Engine

/-! A run of the LMTP engine, cut at each line it takes off the buffer, each answer it takes
and each check it makes. -/
namespace Ionosphere.Lmtp

open Ionosphere.Js Ionosphere.Core Ionosphere.Lib

variable {e : Engine}

/-- What a public method is made of. A line is taken off the buffer together with the rest
that stays there; `unfinished` is the end of the loop at an open line. -/
inductive Move where
  | greeting
  | read (chunk : Bytes)
  | line (text rest : Bytes)
  | unfinished
  | pending
  | errors (count : Nat)
  | rcptResult (outcome : RcptOutcome)
  | deliverResult (results : List LmtpDelivery)

/-- Every complete line has been taken off the buffer that can be. -/
def Settled (e : Engine) : Prop :=
  e.awaiting = none → e.closed = false → Lines.cut CR LF e.buffer = none

section

variable (s : Setup)

def Move.act : Move → Handler
  | .greeting => fun e => (e, Lmtp.greeting s)
  | .read chunk => fun e => ({ e with buffer := e.buffer ++ chunk }, [])
  | .line text rest => fun e => handleInput s text { e with buffer := rest }
  | .unfinished => guardLine
  | .pending => guardPending
  | .errors count => guardErrors count
  | .rcptResult outcome => fun e =>
    match e.pendingRcpt with
    | some rcpt => rcptGiven outcome rcpt e
    | none => (e, [])
  | .deliverResult results => deliveryGiven results

def Move.Allowed (e : Engine) : Move → Prop
  | .greeting => True
  | .read _ => e.closed = false ∧ Settled e
  | .line text rest =>
    e.awaiting = none ∧ e.closed = false ∧ Lines.cut CR LF e.buffer = some (text, rest)
  | .unfinished => e.awaiting = none ∧ e.closed = false ∧ Lines.cut CR LF e.buffer = none
  | .pending | .errors _ => Settled e
  | .rcptResult _ => e.awaiting = some .rcpt ∧ e.pendingRcpt.isSome
  | .deliverResult _ => e.awaiting = some .deliver

abbrev Moment := Trace.Moment Engine Move

abbrev History (e : Engine) (ms : List Moment) (e' : Engine) : Prop :=
  Trace.Linked (Move.act s) Move.Allowed e ms e'

abbrev Cut (e : Engine) (ms : List Moment) (r : Engine × List LmtpAction) : Prop :=
  Trace.Cut (Move.act s) Move.Allowed e ms r

def Moment.actions (m : Moment) : List LmtpAction := (m.move.act s m.state).2

def pumpMoments : Nat → Engine → List Moment
  | 0, _ => []
  | fuel + 1, e =>
    if e.awaiting.isSome || e.closed then []
    else
      match Lines.cut CR LF e.buffer with
      | none => [⟨e, .unfinished⟩]
      | some (text, rest) =>
        ⟨e, .line text rest⟩ :: pumpMoments fuel (handleInput s text { e with buffer := rest }).1

/-- The moments of `pump`. -/
def pumpedMoments (e : Engine) : List Moment := pumpMoments s (e.buffer.length + 1) e

def answerMoments (m : Move) (e : Engine) : List Moment :=
  let r := m.act s e
  let q := pump s r.1
  ⟨e, m⟩ :: pumpedMoments s r.1 ++ [⟨q.1, .errors ((r.2 ++ q.2).countP isErrorReply)⟩]

def feedMoments (chunk : Bytes) (e : Engine) : List Moment :=
  let e₁ := { e with buffer := e.buffer ++ chunk }
  let r := pump s e₁
  let q := guardPending r.1
  ⟨e, .read chunk⟩ :: pumpedMoments s e₁ ++
    [⟨r.1, .pending⟩, ⟨q.1, .errors ((r.2 ++ q.2).countP isErrorReply)⟩]

def stepMoments (c : Call) (e : Engine) : List Moment :=
  match c with
  | .greeting => [⟨e, .greeting⟩]
  | .feed chunk => if e.closed then [] else feedMoments s chunk e
  | .rcptResult outcome => answerMoments s (.rcptResult outcome) e
  | .deliverResult results => answerMoments s (.deliverResult results) e

def runMoments (e : Engine) : List Call → List Moment
  | [] => []
  | c :: cs =>
    stepMoments s c e ++
      match step s c e with
      | none => []
      | some r => runMoments r.1 cs

/-- The ways a command line can go. -/
inductive CommandEffect (e : Engine) : Engine × List LmtpAction → Prop
  | greet (name : Text) (acts : List LmtpAction) (hacts : ∀ a ∈ acts, ∃ text, a = .reply text)
      (hlines : acts.length = 5) :
    CommandEffect e (resetTransaction { e with lhloName := name, greeted := true }, acts)
  | mail (addr : Text) (hfree : e.mailFrom = none) :
    CommandEffect e ({ e with mailFrom := some addr }, [.reply "250 2.1.0 OK".toList])
  | rcpt (addr : Text) (hfrom : e.mailFrom ≠ none) :
    CommandEffect e ({ e with
        rcptCount := e.rcptCount + 1
        pendingRcpt := some addr
        awaiting := some .rcpt }, [.verifyRcpt addr])
  | data (hfrom : e.mailFrom ≠ none) (hrcpt : e.rcptTo ≠ []) :
    CommandEffect e ({ e with inData := true, dataLines := [], dataOverflow := false },
      [.reply "354 end data with <CR><LF>.<CR><LF>".toList])
  | reset : CommandEffect e (resetTransaction e, [.reply "250 2.0.0 OK".toList])
  | quit : CommandEffect e (cmdQuit s e)
  | aside (text : Text) (hmail : text ≠ "250 2.1.0 OK".toList)
      (hdata : text ≠ "354 end data with <CR><LF>.<CR><LF>".toList) :
    CommandEffect e (e, [.reply text])

theorem cmdMail_effect (rest : Text) (e : Engine) : CommandEffect s e (cmdMail rest e) := by
  unfold cmdMail
  split
  · exact .aside _ (by decide) (by decide)
  · split
    · exact .aside _ (by decide) (by decide)
    · rename_i hfree
      split
      · exact .aside _ (by decide) (by decide)
      · exact .mail _ (by simpa using hfree)

theorem cmdRcpt_effect (rest : Text) (e : Engine) : CommandEffect s e (cmdRcpt rest e) := by
  unfold cmdRcpt
  split
  · exact .aside _ (by decide) (by decide)
  · rename_i hfrom
    split
    · exact .aside _ (by decide) (by decide)
    · exact .aside _ (by decide) (by decide)
    · split
      · exact .aside _ (by decide) (by decide)
      · exact .rcpt _ (by simpa using hfrom)

theorem cmdData_effect (e : Engine) : CommandEffect s e (cmdData e) := by
  unfold cmdData
  split
  · exact .aside _ (by decide) (by decide)
  · rename_i hfrom
    split
    · exact .aside _ (by decide) (by decide)
    · rename_i hrcpt
      exact .data (by simpa using hfrom) hrcpt

theorem CommandEffect.ite {p : Prop} [Decidable p] {f g : Handler} (hf : CommandEffect s e (f e))
    (hg : CommandEffect s e (g e)) : CommandEffect s e ((if p then f else g) e) := by
  split <;> assumption

theorem handleCommand_effect (line : Bytes) (e : Engine) :
    CommandEffect s e (handleCommand s line e) := by
  unfold handleCommand handleVerb
  refine .ite _ ?_ (.ite _ (.aside _ (by decide) (by decide)) (.ite _ (cmdMail_effect s _ e)
    (.ite _ (cmdRcpt_effect s _ e) (.ite _ (cmdData_effect s e) (.ite _ .reset
      (.ite _ (.aside _ (by decide) (by decide)) (.ite _ .quit
        (.aside _ (by decide) (by decide)))))))))
  unfold cmdLhlo
  split
  · exact .aside _ (by decide) (by decide)
  · exact .greet _ _ (by simp) rfl

theorem handleInput_buffer (line : Bytes) (e : Engine) :
    (handleInput s line e).1.buffer = e.buffer := by
  unfold handleInput
  split_ifs
  · unfold handleDataLine
    split_ifs <;> rfl
  · have heffect := handleCommand_effect s line e
    generalize handleCommand s line e = r at heffect ⊢
    cases heffect <;> rfl

theorem settled_of_cut (h : Lines.cut CR LF e.buffer = none) : Settled e :=
  fun _ _ => h

theorem guardLine_settled (h : Lines.cut CR LF e.buffer = none) :
    Settled (guardLine e).1 := by
  unfold guardLine
  split_ifs
  · exact settled_of_cut rfl
  · exact settled_of_cut h

theorem pumpLoop_settled {fuel : Nat} (hfuel : e.buffer.length < fuel) :
    Settled (pumpLoop s fuel e).1 := by
  induction fuel generalizing e with
  | zero => omega
  | succ fuel ih =>
    unfold pumpLoop
    split_ifs with hstop
    · intro hwait hopen
      dsimp only at hwait hopen
      simp [hwait, hopen] at hstop
    · split
      · rename_i hcut
        exact guardLine_settled hcut
      · rename_i line rest hcut
        refine ih ?_
        have hlen := Lines.length_of_cut hcut
        rw [handleInput_buffer]
        dsimp only
        omega

theorem pump_settled (e : Engine) : Settled (pump s e).1 := pumpLoop_settled s (Nat.lt_succ_self _)

theorem guardPending_settled (h : Settled e) : Settled (guardPending e).1 := by
  unfold guardPending
  split_ifs
  · exact settled_of_cut rfl
  · exact h

theorem guardErrors_settled (count : Nat) (h : Settled e) :
    Settled (guardErrors count e).1 := by
  unfold guardErrors
  split_ifs
  · exact h
  · exact h
  · exact settled_of_cut rfl

theorem pumpMoments_history (fuel : Nat) (e : Engine) :
    Cut s e (pumpMoments s fuel e) (pumpLoop s fuel e) := by
  induction fuel generalizing e with
  | zero => exact .nil e
  | succ fuel ih =>
    unfold pumpMoments pumpLoop
    split_ifs with hstop
    · exact .nil e
    · have hfree : e.awaiting = none ∧ e.closed = false := by simpa using hstop
      cases hcut : Lines.cut CR LF e.buffer with
      | none => exact .one (m := Move.unfinished) ⟨hfree.1, hfree.2, hcut⟩ rfl
      | some p => exact Trace.Cut.cons (m := Move.line p.1 p.2) ⟨hfree.1, hfree.2, hcut⟩ (ih _)

theorem answerMoments_history {m : Move} (hallowed : m.Allowed e) :
    Cut s e (answerMoments s m e) (guarded (andThen (m.act s) (pump s)) e) := by
  have hpump := pumpMoments_history s ((m.act s e).1.buffer.length + 1) (m.act s e).1
  exact (Trace.Cut.cons hallowed hpump).append (.one (m := Move.errors _)
    (pump_settled s (m.act s e).1) rfl)

theorem feedMoments_history (chunk : Bytes) (hopen : e.closed = false)
    (hsettled : Settled e) :
    Cut s e (feedMoments s chunk e) (feed s chunk e) := by
  have hread : (Move.read chunk).Allowed e := ⟨hopen, hsettled⟩
  have hfeed : feed s chunk e =
      guarded (andThen (pump s) guardPending) { e with buffer := e.buffer ++ chunk } := by
    simp [feed, hopen]
  have hpump := pump_settled s { e with buffer := e.buffer ++ chunk }
  have hpending := guardPending_settled hpump
  obtain ⟨hhist, hout⟩ := pumpMoments_history s ((e.buffer ++ chunk).length + 1)
    { e with buffer := e.buffer ++ chunk }
  rw [hfeed]
  refine ⟨.cons hread (hhist.append (.cons hpump (.one hpending))), ?_⟩
  rw [feedMoments, List.cons_append, Trace.outputs_cons, Trace.outputs_append, pumpedMoments, hout,
    Trace.outputs_cons, Trace.outputs_cons]
  change [] ++ (_ ++ (_ ++ (_ ++ []))) = _
  rw [List.nil_append, List.append_nil, ← List.append_assoc]
  rfl

theorem step_history {c : Call} {r : Engine × List LmtpAction} (hsettled : Settled e)
    (h : step s c e = some r) : Cut s e (stepMoments s c e) r ∧ Settled r.1 := by
  have hguarded : ∀ f : Handler, Settled (f e).1 → Settled (guarded f e).1 := by
    intro f hf
    exact guardErrors_settled _ hf
  cases c with
  | greeting =>
    cases h
    exact ⟨.one trivial rfl, hsettled⟩
  | feed chunk =>
    cases h
    cases hclosed : e.closed with
    | true =>
      have hfeed : feed s chunk e = (e, []) := by simp [feed, hclosed]
      simp only [stepMoments, hclosed, if_true, hfeed]
      exact ⟨.nil e, hsettled⟩
    | false =>
      simp only [stepMoments, hclosed, Bool.false_eq_true, if_false]
      refine ⟨feedMoments_history s chunk hclosed hsettled, ?_⟩
      simp only [feed, hclosed, Bool.false_eq_true, if_false]
      exact guardErrors_settled _ (guardPending_settled (pump_settled s _))
  | rcptResult outcome =>
    simp only [step, rcptResult] at h
    split at h
    · rename_i rcpt hwait hrcpt
      have hact : (Move.rcptResult outcome).act s e = rcptGiven outcome rcpt e := by
        simp only [Move.act, hrcpt]
      have hallowed : (Move.rcptResult outcome).Allowed e := ⟨hwait, by simp [hrcpt]⟩
      have hcut := answerMoments_history s hallowed
      have hsame : guarded (andThen ((Move.rcptResult outcome).act s) (pump s)) e = r := by
        rw [← Option.some.inj h]
        simp only [guarded, andThen, hact]
      rw [hsame] at hcut
      refine ⟨hcut, ?_⟩
      rw [← Option.some.inj h]
      exact hguarded _ (pump_settled s _)
    · cases h
  | deliverResult results =>
    simp only [step, deliverResult] at h
    split_ifs at h with hwait
    have hallowed : (Move.deliverResult results).Allowed e := hwait
    rw [← Option.some.inj h]
    exact ⟨answerMoments_history s hallowed, hguarded _ (pump_settled s _)⟩

theorem run_history {cs : List Call} {e e' : Engine} {acts : List (List LmtpAction)}
    (hsettled : Settled e) (h : run s e cs = some (e', acts)) :
    Cut s e (runMoments s e cs) (e', acts.flatten) ∧ Settled e' :=
  Trace.Cut.run (step s) (stepMoments s) (fun _ => rfl)
    (fun e c _ => by rw [run]; cases step s c e <;> rfl) (fun _ => rfl)
    (fun _ _ _ _ h => by rw [runMoments, h]) (fun _ _ _ he h => step_history s he h) hsettled h

variable {s} in
theorem run_append {cs : List Call} {e e₁ : Engine} {acts : List (List LmtpAction)}
    (h : run s e cs = some (e₁, acts)) (ds : List Call) :
    run s e (cs ++ ds) = (run s e₁ ds).map (fun p => (p.1, acts ++ p.2)) ∧
      runMoments s e (cs ++ ds) = runMoments s e cs ++ runMoments s e₁ ds := by
  induction cs generalizing e acts with
  | nil =>
    cases h
    exact ⟨(Option.map_id_apply).symm, rfl⟩
  | cons c cs ih =>
    simp only [run] at h
    cases hstep : step s c e with
    | none => simp [hstep] at h
    | some r =>
      simp only [hstep, Option.map_eq_some_iff, Prod.mk.injEq] at h
      obtain ⟨⟨e₂, acts₂⟩, hrest, rfl, rfl⟩ := h
      obtain ⟨hrun, hmoments⟩ := ih hrest
      refine ⟨?_, ?_⟩
      · simp only [List.cons_append, run, hstep, hrun, Option.map_map]
        rfl
      · simp only [List.cons_append, runMoments, hstep, hmoments, List.append_assoc]

end

end Ionosphere.Lmtp
