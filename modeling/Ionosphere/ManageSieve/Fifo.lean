import Ionosphere.ManageSieve.StartTls

/-! The order of the lines. The queue is drained after each answer, but the client's SASL
data is read past it: an AUTHENTICATE that is taken from the queue with lines behind it, and
a SCRAM challenge sent while lines are queued, leave lines in the queue that later ones pass. -/
namespace Ionosphere.ManageSieve

open Ionosphere.Js Ionosphere.Core Ionosphere.Lib

variable {e : Engine}
open Ionosphere.Imap (LinePart Reader ReaderEvent)

def Move.arrived : Move → List (List LinePart)
  | .command _ parts => [parts]
  | .response _ parts => [parts]
  | .enqueue parts => [parts]
  | _ => []

def Move.handled : Move → List (List LinePart)
  | .command _ parts => [parts]
  | .response _ parts => [parts]
  | .dequeue _ parts => [parts]
  | _ => []

section

variable (s : Setup)

def Move.discarded (e : Engine) : Move → List (List LinePart)
  | .command _ parts => if acceptsStartTls s parts e then e.queued else []
  | .dequeue _ parts => if acceptsStartTls s parts e then e.queued.tail else []
  | .tlsUpgraded => e.queued
  | _ => []

def arrivals (ms : List Moment) : List (List LinePart) := ms.flatMap fun m => m.move.arrived

def disposals (ms : List Moment) : List (List LinePart) :=
  ms.flatMap fun m => m.move.handled ++ m.move.discarded s m.state

/-- Every line that came was handled or given up, or is queued, in the order they came; was
handled, or is queued, if none was given up; and while the client's SASL data is awaited no
line is queued and a line that comes is the data. -/
structure InOrder (ms : List Moment) (e : Engine) : Prop where
  order : disposals s ms ++ e.queued = arrivals ms
  handled : (∀ m ∈ ms, m.move.discarded s m.state = []) →
    (ms.flatMap fun m => m.move.handled) ++ e.queued = arrivals ms
  response : ∀ m ∈ ms, ∀ sasl, m.state.pending = some (.authLine sasl) →
    m.state.queued = [] ∧ ∀ parts ∈ m.move.arrived, ∃ nonce, m.move = .response nonce parts

def strands (m : Moment) : Bool :=
  match m.move with
  | .dequeue _ parts => !m.state.queued.tail.isEmpty && waitsForClient s parts m.state
  | .answer (.scramKeys _) => !m.state.queued.isEmpty
  | _ => false

theorem handleLine_queued (nonce : Text) (parts : List LinePart) (e : Engine) :
    (if acceptsStartTls s parts e then e.queued else []) ++ (handleLine s nonce parts e).1.queued =
      e.queued := by
  cases hacc : acceptsStartTls s parts e with
  | false =>
    have heffect := handleLine_effect s nonce parts e
    generalize handleLine s nonce parts e = r at heffect ⊢
    cases heffect with
    | startTls acts haccepts =>
      rw [hacc] at haccepts
      cases haccepts
    | _ => rfl
  | true =>
    have hdrop : (handleLine s nonce parts e).1.queued = [] := by
      simp only [acceptsStartTls, Bool.and_eq_true, decide_eq_true_eq, Bool.not_eq_true',
        Option.isNone_iff_eq_none] at hacc
      obtain ⟨⟨⟨hverb, hsecure⟩, htls⟩, hpending⟩ := hacc
      cases hvalues : parseParts parts with
      | nil => simp [lineVerb, hvalues] at hverb
      | cons name values =>
        have hname : verbOf (toUpperCase s.host.cases name) = some .startTls := by
          simpa [lineVerb, hvalues] using hverb
        simp [handleLine, hvalues, hname, cmdStartTls, hsecure, htls, hpending]
    rw [if_pos rfl, hdrop, List.append_nil]

theorem handleLine_queued_le (nonce : Text) (parts : List LinePart) (e : Engine) :
    (handleLine s nonce parts e).1.queued.length ≤ e.queued.length := by
  have hlength := congrArg List.length (handleLine_queued s nonce parts e)
  rw [List.length_append] at hlength
  omega

theorem handleLine_queued_nil (nonce : Text) (parts : List LinePart)
    (h : e.queued = []) : (handleLine s nonce parts e).1.queued = [] := by
  have hle := handleLine_queued_le s nonce parts e
  rw [h] at hle
  exact List.length_eq_zero_iff.mp (Nat.le_zero.mp hle)

theorem respond_queued (nonce : Text) (parts : List LinePart) (e : Engine) :
    (respond s nonce parts e).1.queued = e.queued := by
  unfold respond
  split
  · rename_i sasl hpending
    split_ifs
    · rfl
    · cases sasl with
      | plain =>
        simp only [handleSaslData, decodePlain]
        split
        · rfl
        · split <;> rfl
      | scram =>
        obtain ⟨scram, pending, acts, heq, -⟩ :=
          handleScramLine_pending s nonce (saslData parts) { e with pending := none }
        simp only [handleSaslData, heq]
  · rfl

theorem handleLine_pending (nonce : Text) (parts : List LinePart)
    (hnone : e.pending = none) (hwaits : waitsForClient s parts e = false) :
    (handleLine s nonce parts e).1.pending = none ∨
      requesting (handleLine s nonce parts e).1 = true := by
  have heffect := handleLine_effect s nonce parts e
  generalize handleLine s nonce parts e = r at heffect ⊢
  cases heffect with
  | talk acts => exact .inl hnone
  | logout acts => exact .inl hnone
  | startTls acts haccepts => exact .inl hnone
  | exchange scram pending acts hpending =>
    obtain hkeep | hreq := hpending
    · exact .inl (hkeep.trans hnone)
    · exact .inr hreq
  | await scram sasl acts hw =>
    rw [hwaits] at hw
    cases hw

/-- Lines wait in the queue for an answer of the backend, or the session is over. -/
def Waits (e : Engine) : Prop := e.queued = [] ∨ e.closed = true ∨ requesting e = true

theorem Waits.queued_nil (h : Waits e) (hclosed : e.closed = false)
    (hidle : requesting e = false) : e.queued = [] := by
  obtain hnil | hc | hreq := h
  · exact hnil
  · rw [hclosed] at hc
    cases hc
  · rw [hidle] at hreq
    cases hreq

theorem requesting_of_none (h : e.pending = none) : requesting e = false := by
  rw [requesting, h]
  rfl

theorem requesting_of_authLine {sasl : Sasl} (h : e.pending = some (.authLine sasl)) :
    requesting e = false := by
  rw [requesting, h]
  rfl

theorem drainLoop_waits (nonce : Nat → Text) {fuel : Nat}
    (hfuel : e.queued.length ≤ fuel) (hplain : Plain e) (hstart : e.pending = none ∨ Waits e)
    (hstrand : ∀ m ∈ drainMoments s fuel nonce e, strands s m = false) :
    Waits (drainLoop s fuel nonce e).1 := by
  induction fuel generalizing nonce e with
  | zero => exact .inl (List.length_eq_zero_iff.mp (Nat.le_zero.mp hfuel))
  | succ fuel ih =>
    unfold drainLoop
    unfold drainMoments at hstrand
    cases hqueue : e.queued with
    | nil => exact .inl hqueue
    | cons parts queued =>
      rw [hqueue] at hstrand
      dsimp only at hstrand ⊢
      split_ifs with hstop
      · refine hstart.elim (fun hnone => ?_) id
        -- nothing is pending and the queue is not empty, so the session is over
        cases hclosed : e.closed with
        | true => exact .inr (.inl hclosed)
        | false =>
          have htls : e.awaitingTls = true := by simpa [canDrain, hnone, hclosed] using hstop
          have hnil := (hplain htls).2.2
          rw [hqueue] at hnil
          cases hnil
      · have hcan : canDrain e = true := by simpa using hstop
        obtain ⟨hnone, hclosed, htls⟩ := canDrain_iff.mp hcan
        rw [if_neg hstop] at hstrand
        have hle : queued.length ≤ fuel := by
          rw [hqueue, List.length_cons] at hfuel
          omega
        have hshrinks := handleLine_queued_le s (nonce 0) parts { e with queued := queued }
        refine ih (fun i => nonce (i + 1)) (hshrinks.trans hle)
          (handleLine_plain s (nonce 0) parts hclosed htls) ?_
          fun m hm => hstrand m (List.mem_cons_of_mem _ hm)
        have hhead := hstrand _ (List.mem_cons_self ..)
        simp only [strands, hqueue, List.tail_cons, Bool.and_eq_false_iff] at hhead
        obtain hlast | hnot := hhead
        · have hnil : queued = [] := by simpa using hlast
          exact .inr (.inl (handleLine_queued_nil s (nonce 0) parts hnil))
        · obtain hdone | hreq := handleLine_pending s (nonce 0) parts
            (e := { e with queued := queued }) hnone hnot
          · exact .inl hdone
          · exact .inr (.inr (.inr hreq))

def Fresh (ms : List Moment) : Prop :=
  ∀ m ∈ ms, ∀ nonce parts, m.move = .command nonce parts → m.state.queued = []

theorem Fresh.append {ms ms' : List Moment} (h : Fresh ms) (h' : Fresh ms') : Fresh (ms ++ ms') := by
  intro m hm
  exact (List.mem_append.mp hm).elim (h m) (h' m)

theorem drainMoments_fresh (nonce : Nat → Text) (fuel : Nat) (e : Engine) :
    Fresh (drainMoments s fuel nonce e) := by
  induction fuel generalizing nonce e with
  | zero => simp [drainMoments, Fresh]
  | succ fuel ih =>
    intro m hm
    unfold drainMoments at hm
    split at hm
    · cases hm
    · split at hm
      · cases hm
      · obtain rfl | hm := List.mem_cons.mp hm
        · rintro _ _ ⟨⟩
        · exact ih _ _ m hm

theorem answer_waits (nonce : Nat → Text) {a : Answer} {p : Pending}
    (hpending : e.pending = some p) (hfits : a.fits p = true) (hplain : Plain e)
    (hstrand : ∀ m ∈ resumedMoments s nonce (.answer a) e, strands s m = false) :
    Fresh (resumedMoments s nonce (.answer a) e) ∧ Waits (resumed s nonce (a.act s e)).1 := by
  refine ⟨fun m hm => ?_, ?_⟩
  · obtain rfl | hm := List.mem_cons.mp hm
    · rintro _ _ ⟨⟩
    · exact drainMoments_fresh s nonce _ _ m hm
  · have hafter : Plain (a.act s e).1 :=
      act_plain s (m := .answer a) ⟨p, hpending, hfits⟩ hplain
    refine drainLoop_waits s nonce le_rfl hafter ?_
      fun m hm => hstrand m (List.mem_cons_of_mem _ hm)
    cases a with
    | auth ok =>
      left
      simp only [Answer.act, authGiven]
      split_ifs <;> rfl
    | op result => exact .inl rfl
    | list scripts => exact .inl rfl
    | get content => exact .inl rfl
    | scramKeys keys =>
      have hnil : e.queued = [] := by
        have hhead := hstrand _ (List.mem_cons_self ..)
        simpa [strands] using hhead
      right
      left
      simp only [Answer.act, scramKeysGiven]
      split
      · exact hnil
      · split <;> exact hnil

theorem onEvent_waits (nonce : Nat → Text) (h : Waits e) (hclosed : e.closed = false)
    (ev : ReaderEvent) :
    Fresh (eventMoments s nonce e ev) ∧ Waits (onEvent s nonce ev e).1 := by
  have hother : ∀ {a : Move}, (∀ nonce parts, a ≠ .command nonce parts) →
      Fresh [(⟨e, a⟩ : Moment)] := by
    intro a ha m hm nonce' parts hmove
    rw [List.mem_singleton.mp hm] at hmove
    exact absurd hmove (ha nonce' parts)
  cases ev with
  | «continue» size => exact ⟨hother (by simp), h⟩
  | error message => exact ⟨hother (by simp), h⟩
  | line parts =>
    cases hpending : e.pending with
    | none =>
      have hnil := h.queued_nil hclosed (requesting_of_none hpending)
      simp only [eventMoments, onEvent, hpending]
      refine ⟨fun m hm _ _ _ => ?_, .inl (handleLine_queued_nil s (nonce 0) parts hnil)⟩
      rw [List.mem_singleton.mp hm]
      exact hnil
    | some p =>
      have hqueued : ∀ {p : Pending}, e.pending = some p → p.requests = true →
          Fresh [(⟨e, .enqueue parts⟩ : Moment)] ∧ Waits { e with queued := e.queued ++ [parts] } := by
        intro p hp hreq
        have hrequesting : requesting e = true := by
          rw [requesting, hp]
          exact hreq
        exact ⟨hother (by simp), .inr (.inr hrequesting)⟩
      cases p with
      | authLine sasl =>
        have hnil := h.queued_nil hclosed (requesting_of_authLine hpending)
        have hrespond := respond_queued s (nonce 0) parts e
        simp only [eventMoments, onEvent, hpending]
        simp only [respond, hpending] at hrespond
        split_ifs with hstar
        · -- nothing was queued, so nothing is drained
          have hdrain : (abort e).1.queued = [] := hnil
          have hact : (Move.response (nonce 0) parts).act s e = abort e := by
            simp only [Move.act, respond, hpending, if_pos hstar]
          refine ⟨?_, ?_⟩
          · rw [resumedMoments, hact, hdrain]
            exact hother (by simp)
          · simp only [resumed, drain, hdrain]
            exact .inl hdrain
        · rw [if_neg hstar] at hrespond
          exact ⟨hother (by simp), .inl (hrespond.trans hnil)⟩
      | _ => simpa only [eventMoments, onEvent, hpending] using hqueued hpending rfl

theorem onEvents_waits (nonce : Nat → Nat → Text) (evs : List ReaderEvent)
    (h : Waits e) (hclosed : e.closed = false) :
    Fresh (eventsMoments s nonce evs e) ∧ Waits (onEvents s nonce evs e).1 := by
  induction evs generalizing nonce e with
  | nil => exact ⟨by simp [eventsMoments, Fresh], h⟩
  | cons ev evs ih =>
    obtain ⟨hfresh, hwaits⟩ := onEvent_waits s (nonce 0) h hclosed ev
    simp only [eventsMoments, onEvents]
    split_ifs with hstop
    · rw [List.append_nil]
      exact ⟨hfresh, hwaits⟩
    · have hopen : (onEvent s (nonce 0) ev e).1.closed = false := by
        simp only [Bool.or_eq_true, not_or, Bool.not_eq_true] at hstop
        exact hstop.1
      obtain ⟨hrest, hlast⟩ := ih (fun i => nonce (i + 1)) hwaits hopen
      exact ⟨hfresh.append hrest, hlast⟩

/-- A call handles no line past a queued one, and leaves the queue waiting for an answer. -/
theorem step_waits {i : Input} {r : Engine × List ManageSieveAction} (h : Waits e)
    (hplain : Plain e) (hstep : step s i e = some r)
    (hstrand : ∀ m ∈ stepMoments s i e, strands s m = false) :
    Fresh (stepMoments s i e) ∧ Waits r.1 := by
  obtain ⟨c, nonce⟩ := i
  cases c with
  | greeting =>
    cases hstep
    exact ⟨by simp [stepMoments, Fresh], h⟩
  | tlsUpgraded =>
    cases hstep
    exact ⟨by simp [stepMoments, Fresh], .inl rfl⟩
  | feed chunk =>
    have hr : feed s nonce chunk e = r := Option.some.inj hstep
    simp only [stepMoments]
    unfold feed at hr
    split_ifs at hr with hclosed htls
    · rw [if_pos (by simp [hclosed]), ← hr]
      exact ⟨by simp [Fresh], h⟩
    · rw [if_pos (by simp [htls]), ← hr]
      exact ⟨by simp [Fresh], h⟩
    · have hopen : e.closed = false := by simpa using hclosed
      obtain ⟨hfresh, hwaits⟩ := onEvents_waits s nonce (e.reader.feed chunk).2
        (e := { e with reader := (e.reader.feed chunk).1 }) h hopen
      rw [if_neg (by simp_all), ← hr]
      refine ⟨fun m hm => ?_, hwaits⟩
      obtain rfl | hm := List.mem_cons.mp hm
      · rintro _ _ ⟨⟩
      · exact hfresh m hm
  | authResult ok =>
    simp only [step, authResult] at hstep
    split at hstep
    · rename_i sasl hpending
      rw [← Option.some.inj hstep]
      exact answer_waits s (nonce 0) (a := .auth ok) hpending rfl hplain hstrand
    · rename_i sasl hpending
      rw [← Option.some.inj hstep]
      exact answer_waits s (nonce 0) (a := .auth ok) hpending rfl hplain hstrand
    · cases hstep
  | opResult result =>
    simp only [step, opResult] at hstep
    split at hstep
    · rename_i name hpending
      rw [← Option.some.inj hstep]
      exact answer_waits s (nonce 0) (a := .op result) hpending rfl hplain hstrand
    · rename_i hpending
      rw [← Option.some.inj hstep]
      exact answer_waits s (nonce 0) (a := .op result) hpending rfl hplain hstrand
    · rename_i hpending
      rw [← Option.some.inj hstep]
      exact answer_waits s (nonce 0) (a := .op result) hpending rfl hplain hstrand
    · cases hstep
  | listResult scripts =>
    simp only [step, listResult] at hstep
    split at hstep
    · rename_i hpending
      rw [← Option.some.inj hstep]
      exact answer_waits s (nonce 0) (a := .list scripts) hpending rfl hplain hstrand
    · cases hstep
  | getResult content =>
    simp only [step, getResult] at hstep
    split at hstep
    · rename_i name hpending
      rw [← Option.some.inj hstep]
      exact answer_waits s (nonce 0) (a := .get content) hpending rfl hplain hstrand
    · cases hstep
  | scramKeysResult keys =>
    simp only [step, scramKeysResult] at hstep
    split at hstep
    · rename_i hpending
      rw [← Option.some.inj hstep]
      exact answer_waits s (nonce 0) (a := .scramKeys keys) hpending rfl hplain hstrand
    · cases hstep

theorem run_waits {is : List Input} {e e' : Engine} {acts : List (List ManageSieveAction)}
    (h : Waits e) (hplain : Plain e) (hrun : run s e is = some (e', acts))
    (hstrand : ∀ m ∈ runMoments s e is, strands s m = false) :
    Fresh (runMoments s e is) ∧ Waits e' := by
  induction is generalizing e acts with
  | nil =>
    cases hrun
    exact ⟨by simp [runMoments, Fresh], h⟩
  | cons i is ih =>
    simp only [run] at hrun
    cases hstep : step s i e with
    | none => simp [hstep] at hrun
    | some r =>
      simp only [hstep, Option.map_eq_some_iff, Prod.mk.injEq] at hrun
      obtain ⟨⟨e₂, acts₂⟩, hrest, rfl, rfl⟩ := hrun
      have hnext : Plain r.1 :=
        ((step_history s hstep).1.invariant hplain fun _ _ hallowed hp => act_plain s hallowed hp).2
      simp only [runMoments, hstep, List.mem_append] at hstrand ⊢
      obtain ⟨hfresh, hwaits⟩ := step_waits s h hplain hstep fun m hm => hstrand m (.inl hm)
      obtain ⟨hlater, hlast⟩ := ih hwaits hnext hrest fun m hm => hstrand m (.inr hm)
      exact ⟨hfresh.append hlater, hlast⟩

/-- No line is queued while the client's data is awaited. -/
def Attends (e : Engine) : Prop := ∀ sasl, e.pending = some (.authLine sasl) → e.queued = []

theorem attends_of_nil (h : e.queued = []) : Attends e := fun _ _ => h

theorem attends_of_ne (h : ∀ sasl, e.pending ≠ some (.authLine sasl)) : Attends e :=
  fun sasl hpending => absurd hpending (h sasl)

theorem requesting_ne (h : requesting e = true) (sasl : Sasl) :
    e.pending ≠ some (.authLine sasl) := by
  intro hpending
  rw [requesting_of_authLine hpending] at h
  cases h

theorem act_attends {m : Moment} (hallowed : m.move.Allowed m.state)
    (hfresh : ∀ nonce parts, m.move = .command nonce parts → m.state.queued = [])
    (hstrand : strands s m = false) (h : Attends m.state) : Attends (m.move.act s m.state).1 := by
  obtain ⟨e, move⟩ := m
  cases move with
  | greeting => exact h
  | read chunk => exact h
  | tell text => exact h
  | command nonce parts =>
    exact attends_of_nil (handleLine_queued_nil s nonce parts (hfresh nonce parts rfl))
  | response nonce parts =>
    obtain ⟨-, -, sasl, hpending⟩ := hallowed
    exact attends_of_nil ((respond_queued s nonce parts e).trans (h sasl hpending))
  | enqueue parts => exact attends_of_ne (requesting_ne hallowed.2.2)
  | dequeue nonce parts =>
    have hnone := (canDrain_iff.mp hallowed.1).1
    simp only [strands, Bool.and_eq_false_iff] at hstrand
    obtain hlast | hnot := hstrand
    · have hnil : e.queued.tail = [] := by simpa using hlast
      exact attends_of_nil (handleLine_queued_nil s nonce parts hnil)
    · obtain hdone | hreq := handleLine_pending s nonce parts
        (e := { e with queued := e.queued.tail }) hnone hnot
      · refine attends_of_ne fun sasl hpending => ?_
        rw [Move.act, hdone] at hpending
        cases hpending
      · exact attends_of_ne (requesting_ne hreq)
  | answer a =>
    cases a with
    | auth ok =>
      refine attends_of_ne fun sasl hpending => ?_
      simp only [Move.act, Answer.act, authGiven] at hpending
      split_ifs at hpending
    | op result => exact attends_of_ne (by simp [Move.act, Answer.act, opGiven])
    | list scripts => exact attends_of_ne (by simp [Move.act, Answer.act, listGiven])
    | get content => exact attends_of_ne (by simp [Move.act, Answer.act, getGiven])
    | scramKeys keys =>
      have hnil : e.queued = [] := by simpa [strands] using hstrand
      refine attends_of_nil ?_
      simp only [Move.act, Answer.act, scramKeysGiven]
      split
      · exact hnil
      · split <;> exact hnil
  | tlsUpgraded => exact attends_of_nil rfl

theorem act_queued {m : Move} (hallowed : m.Allowed e)
    (hfresh : ∀ nonce parts, m = .command nonce parts → e.queued = []) (h : Attends e) :
    m.handled ++ m.discarded s e ++ (m.act s e).1.queued = e.queued ++ m.arrived := by
  cases m with
  | command nonce parts =>
    have hnil := hfresh nonce parts rfl
    have hrest := handleLine_queued_nil s nonce parts hnil
    simp [Move.handled, Move.discarded, Move.act, Move.arrived, hnil, hrest]
  | response nonce parts =>
    obtain ⟨-, -, sasl, hpending⟩ := hallowed
    have hnil := h sasl hpending
    have hrest := (respond_queued s nonce parts e).trans hnil
    simp [Move.handled, Move.discarded, Move.act, Move.arrived, hnil, hrest]
  | enqueue parts => rfl
  | dequeue nonce parts =>
    have hrest := handleLine_queued s nonce parts { e with queued := e.queued.tail }
    have hqueue : e.queued = parts :: e.queued.tail := List.eq_cons_of_mem_head? hallowed.2
    have hsame : acceptsStartTls s parts { e with queued := e.queued.tail } =
        acceptsStartTls s parts e := rfl
    rw [hsame] at hrest
    simp only [Move.handled, Move.discarded, Move.act, Move.arrived, List.append_assoc, hrest,
      List.append_nil]
    exact hqueue.symm
  | answer a =>
    have hkeep : (a.act s e).1.queued = e.queued := by
      cases a with
      | auth ok =>
        simp only [Answer.act, authGiven]
        split_ifs <;> rfl
      | scramKeys keys =>
        simp only [Answer.act, scramKeysGiven]
        split
        · rfl
        · split <;> rfl
      | _ => rfl
    simp [Move.handled, Move.discarded, Move.act, Move.arrived, hkeep]
  | _ => simp [Move.handled, Move.discarded, Move.act, Move.arrived, tlsUpgraded]

theorem history_inOrder {ms : List Moment}
    (h : History s (newEngine s s.options.secure) ms e) (hfresh : Fresh ms)
    (hstrand : ∀ m ∈ ms, strands s m = false) : InOrder s ms e := by
  have hattends := h.invariant (P := Attends) (attends_of_nil rfl) fun m hm hallowed hp =>
    act_attends s hallowed (hfresh m hm) (hstrand m hm) hp
  suffices horder : disposals s ms ++ e.queued = arrivals ms by
    refine ⟨horder, fun hkept => ?_, fun m hm sasl hpending => ?_⟩
    · have hsame : disposals s ms = ms.flatMap fun m => m.move.handled := by
        refine List.flatMap_congr fun m hm => ?_
        rw [hkept m hm, List.append_nil]
      rw [← hsame, horder]
    · obtain ⟨hallowed, hp⟩ := hattends.1 m hm
      refine ⟨hp sasl hpending, fun parts hparts => ?_⟩
      cases hmove : m.move with
      | command nonce parts' =>
        rw [hmove] at hallowed
        rw [hallowed.2.2] at hpending
        cases hpending
      | response nonce parts' =>
        rw [hmove] at hparts
        rw [List.mem_singleton.mp hparts]
        exact ⟨nonce, rfl⟩
      | enqueue parts' =>
        rw [hmove] at hallowed
        exact absurd hpending (requesting_ne hallowed.2.2 sasl)
      | _ =>
        rw [hmove] at hparts
        cases hparts
  refine Trace.Linked.history (P := fun past e => disposals s past ++ e.queued = arrivals past) h
    rfl fun past m hm hallowed hpast => ?_
  have hact := act_queued s hallowed (hfresh m hm) (hattends.1 m hm).2
  simp only [disposals, arrivals, List.flatMap_append, List.flatMap_singleton] at hpast ⊢
  rw [← hpast, List.append_assoc, hact, List.append_assoc]

end

/-- In a run in which no line is queued when the engine begins to wait for the client's data,
the lines are dealt with in the order they come, at every moment of the run; and after every
run lines stay queued only for an answer of the backend or because the session is over. -/
theorem lines_fifo (s : Setup) (is : List Input) (e : Engine)
    (acts : List (List ManageSieveAction))
    (hrun : run s (newEngine s s.options.secure) is = some (e, acts))
    (hstrand : ∀ m ∈ runMoments s (newEngine s s.options.secure) is, strands s m = false) :
    (∀ ms e', ms <+: runMoments s (newEngine s s.options.secure) is →
        History s (newEngine s s.options.secure) ms e' → InOrder s ms e') ∧
      Waits e := by
  obtain ⟨hfresh, hwaits⟩ := run_waits s (.inl rfl) (plain_of_open rfl) hrun hstrand
  refine ⟨fun ms e' hinit hms => ?_, hwaits⟩
  exact history_inOrder s hms (fun m hm => hfresh m (hinit.subset hm))
    fun m hm => hstrand m (hinit.subset hm)

/-- A failed login with a second AUTHENTICATE and its data behind it, and a line that comes
afterwards. -/
def passedRun : List Input :=
  [feeds "AUTHENTICATE PLAIN AHUAcA==\r\nAUTHENTICATE PLAIN\r\nAHUAcA==\r\n",
    ⟨.authResult false, fun _ _ => []⟩, feeds "NOOP\r\n"]

/-- The last line is taken for the client's data while the data stays in the queue, with no
request outstanding. -/
theorem lines_fifo_fails :
    ¬ ∀ (s : Setup) (is : List Input) (e : Engine) (acts : List (List ManageSieveAction)),
      run s (newEngine s s.options.secure) is = some (e, acts) →
        (∀ ms e', ms <+: runMoments s (newEngine s s.options.secure) is →
          History s (newEngine s s.options.secure) ms e' → InOrder s ms e') ∧ Waits e := by
  intro h
  have hends : (run bareSetup (newEngine bareSetup false) passedRun).any (fun r =>
      disposals bareSetup (runMoments bareSetup (newEngine bareSetup false) passedRun) ++
        r.1.queued ≠ arrivals (runMoments bareSetup (newEngine bareSetup false) passedRun)) =
      true := by
    decide +kernel
  obtain ⟨⟨e, acts⟩, hrun, hne⟩ := (Option.any_eq_true _ _).mp hends
  have horder := ((h _ _ e acts hrun).1 _ e (List.prefix_refl _) (run_history _ hrun).1).order
  exact absurd horder (of_decide_eq_true hne)

def attendedRun : List Input :=
  [feeds "AUTHENTICATE PLAIN AHUAcA==\r\nNOOP\r\nAUTHENTICATE PLAIN\r\n",
    ⟨.authResult false, fun _ _ => []⟩, feeds "AHUAcA==\r\nNOOP\r\n",
    ⟨.authResult true, fun _ _ => []⟩]

theorem lines_fifo_attended :
    ∃ e acts, run bareSetup (newEngine bareSetup false) attendedRun = some (e, acts) ∧
      (∀ ms e', ms <+: runMoments bareSetup (newEngine bareSetup false) attendedRun →
        History bareSetup (newEngine bareSetup false) ms e' → InOrder bareSetup ms e') ∧
      Waits e := by
  have hsome : (run bareSetup (newEngine bareSetup false) attendedRun).isSome = true := by
    decide +kernel
  obtain ⟨⟨e, acts⟩, hrun⟩ := Option.isSome_iff_exists.mp hsome
  exact ⟨e, acts, hrun, lines_fifo bareSetup attendedRun e acts hrun (by decide +kernel)⟩

end Ionosphere.ManageSieve
