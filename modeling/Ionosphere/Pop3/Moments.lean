import Ionosphere.Lib.Trace
import Ionosphere.Pop3.Engine

/-! A run of the POP3 engine, cut at each line it takes off the buffer and each answer it
takes. -/
namespace Ionosphere.Pop3

open Ionosphere.Js Ionosphere.Core Ionosphere.Lib

/-- What a public method is made of. A line is taken off the buffer together with the rest
that stays there; `guard` ends the draining. -/
inductive Move (ρ : Type) where
  | greeting
  | read (chunk : Bytes)
  | line (nonce text rest : Text)
  | guard
  | scramKeysResult (keys : Option ScramStoredKeys)
  | authResult (ok : Bool)
  | openMaildropResult (result : Pop3OpenMaildropResult ρ)
  | retrieveResult (result : Option Bytes)
  | commitDeletionsResult (ok : Bool)
  | tlsEstablished

section

variable {ρ : Type} (s : Setup)

def Move.act : Move ρ → Handler ρ
  | .greeting => fun e => (e, Pop3.greeting s)
  | .read chunk => fun e =>
    ({ e with
        decoder := (e.decoder.decode chunk).1
        buffer := e.buffer ++ (e.decoder.decode chunk).2 }, [])
  | .line nonce text rest => fun e => handleInput s nonce (chompCr text) { e with buffer := rest }
  | .guard => guardBuffer
  | .scramKeysResult keys => scramKeysGiven s keys
  | .authResult ok => authGiven ok
  | .openMaildropResult result => maildropGiven result
  | .retrieveResult result => fun e => (messageGiven s result e).getD (e, [])
  | .commitDeletionsResult ok => commitGiven s ok
  | .tlsEstablished => fun e => (Pop3.tlsEstablished e, [])

def Move.Allowed (e : Engine ρ) : Move ρ → Prop
  | .greeting => True
  | .read _ => e.awaitingTls = false ∧ e.closed = false
  | .line _ text rest =>
    e.pending = none ∧ e.closed = false ∧ splitFirst '\n' e.buffer = some (text, rest)
  | .guard => e.closed = false
  | .scramKeysResult _ => e.pending = some .scramKeys
  | .authResult _ => e.pending = some .auth
  | .openMaildropResult _ => e.pending = some .openMaildrop
  | .retrieveResult _ => ∃ msgnum mode, e.pending = some (.retrieve msgnum mode)
  | .commitDeletionsResult _ => e.pending = some .commit
  | .tlsEstablished => True

abbrev Moment (ρ : Type) := Trace.Moment (Engine ρ) (Move ρ)

abbrev History (e : Engine ρ) (ms : List (Moment ρ)) (e' : Engine ρ) : Prop :=
  Trace.Linked (Move.act s) Move.Allowed e ms e'

abbrev Cut (e : Engine ρ) (ms : List (Moment ρ)) (r : Engine ρ × List (Pop3Action ρ)) : Prop :=
  Trace.Cut (Move.act s) Move.Allowed e ms r

def drainMoments : Nat → (Nat → Text) → Engine ρ → List (Moment ρ)
  | 0, _, _ => []
  | fuel + 1, nonce, e =>
    if e.pending.isSome || e.closed then []
    else
      match splitFirst '\n' e.buffer with
      | none => []
      | some (text, rest) =>
        ⟨e, .line (nonce 0) text rest⟩ ::
          drainMoments fuel (fun i => nonce (i + 1))
            (handleInput s (nonce 0) (chompCr text) { e with buffer := rest }).1

def guardedMoments (nonce : Nat → Text) (e : Engine ρ) : List (Moment ρ) :=
  drainMoments s e.buffer.length nonce e ++
    if (drainLoop s e.buffer.length nonce e).1.closed then []
    else [⟨(drainLoop s e.buffer.length nonce e).1, .guard⟩]

def answerMoments (nonce : Nat → Text) (m : Move ρ) (e : Engine ρ) : List (Moment ρ) :=
  ⟨e, m⟩ :: guardedMoments s nonce (m.act s e).1

def stepMoments (i : Input ρ) (e : Engine ρ) : List (Moment ρ) :=
  match i.call with
  | .greeting => [⟨e, .greeting⟩]
  | .feed chunk => if e.awaitingTls || e.closed then [] else answerMoments s i.nonce (.read chunk) e
  | .scramKeysResult keys => answerMoments s i.nonce (.scramKeysResult keys) e
  | .authResult true => [⟨e, .authResult true⟩]
  | .authResult false => answerMoments s i.nonce (.authResult false) e
  | .openMaildropResult result => answerMoments s i.nonce (.openMaildropResult result) e
  | .retrieveResult result => answerMoments s i.nonce (.retrieveResult result) e
  | .commitDeletionsResult ok => [⟨e, .commitDeletionsResult ok⟩]
  | .tlsEstablished => [⟨e, .tlsEstablished⟩]

def runMoments (e : Engine ρ) : List (Input ρ) → List (Moment ρ)
  | [] => []
  | i :: is =>
    stepMoments s i e ++
      match step s i e with
      | none => []
      | some r => runMoments r.1 is

theorem messageGiven_some {result : Option Bytes} {e : Engine ρ}
    {r : Engine ρ × List (Pop3Action ρ)} (h : messageGiven s result e = some r) :
    ∃ msgnum mode a, e.pending = some (.retrieve msgnum mode) ∧
      r = ({ e with pending := none }, [a]) ∧ ((∃ text, a = .err text) ∨ ∃ bytes, a = .replyBinary bytes) := by
  unfold messageGiven at h
  split at h
  · rename_i msgnum mode hpending
    obtain ⟨a, ha, rfl⟩ := Option.map_eq_some_iff.mp h
    refine ⟨msgnum, mode, a, hpending, rfl, ?_⟩
    split at ha
    · exact .inl ⟨_, (Option.some.inj ha).symm⟩
    · exact .inl ⟨_, (Option.some.inj ha).symm⟩
    · split at ha
      · exact .inr ⟨_, (Option.some.inj ha).symm⟩
      · obtain ⟨bytes, -, rfl⟩ := Option.map_eq_some_iff.mp ha
        exact .inr ⟨bytes, rfl⟩
  · cases h

theorem drainMoments_history (nonce : Nat → Text) (fuel : Nat) (e : Engine ρ) :
    Cut s e (drainMoments s fuel nonce e) (drainLoop s fuel nonce e) := by
  induction fuel generalizing nonce e with
  | zero => exact .nil e
  | succ fuel ih =>
    unfold drainMoments drainLoop
    split_ifs with hstop
    · exact .nil e
    · have hfree : e.pending = none ∧ e.closed = false := by simpa using hstop
      cases hcut : splitFirst '\n' e.buffer with
      | none => exact .nil e
      | some p =>
        have hallowed : (Move.line (nonce 0) p.1 p.2).Allowed e := ⟨hfree.1, hfree.2, hcut⟩
        exact .cons hallowed (ih (fun i => nonce (i + 1)) _)

theorem guardedMoments_history (nonce : Nat → Text) (e : Engine ρ) :
    Cut s e (guardedMoments s nonce e) (drain s nonce e) := by
  have hdrain := drainMoments_history s nonce e.buffer.length e
  unfold guardedMoments drain
  dsimp only
  split_ifs with hclosed
  · rw [List.append_nil]
    exact hdrain
  · have hallowed : (Move.guard : Move ρ).Allowed (drainLoop s e.buffer.length nonce e).1 := by
      simpa [Move.Allowed] using hclosed
    exact hdrain.append (.one hallowed rfl)

theorem answerMoments_history (nonce : Nat → Text) {m : Move ρ} {e : Engine ρ}
    (hallowed : m.Allowed e) :
    Cut s e (answerMoments s nonce m e) (resumed s nonce (m.act s e)) :=
  .cons hallowed (guardedMoments_history s nonce (m.act s e).1)

theorem step_history {i : Input ρ} {e : Engine ρ} {r : Engine ρ × List (Pop3Action ρ)}
    (h : step s i e = some r) : Cut s e (stepMoments s i e) r := by
  have hanswer : ∀ {m : Move ρ}, m.Allowed e → resumed s i.nonce (m.act s e) = r →
      Cut s e (answerMoments s i.nonce m e) r := by
    intro m hallowed hact
    rw [← hact]
    exact answerMoments_history s i.nonce hallowed
  obtain ⟨c, nonce⟩ := i
  cases c with
  | greeting => exact .one trivial (Option.some.inj h)
  | tlsEstablished => exact .one trivial (Option.some.inj h)
  | feed chunk =>
    have hr : feed s nonce chunk e = r := Option.some.inj h
    simp only [stepMoments]
    unfold feed at hr
    split_ifs at hr with htls hclosed
    · rw [htls, Bool.true_or, if_pos rfl, ← hr]
      exact .nil e
    · rw [hclosed, Bool.or_true, if_pos rfl, ← hr]
      exact .nil e
    · have hopen : e.awaitingTls = false ∧ e.closed = false := by simp_all
      rw [hopen.1, hopen.2]
      exact hanswer hopen hr
  | scramKeysResult keys =>
    simp only [step, scramKeysResult] at h
    split at h
    · rename_i hpending
      exact hanswer hpending (Option.some.inj h)
    · cases h
  | authResult ok =>
    simp only [step, authResult] at h
    split at h
    · rename_i hpending
      cases ok with
      | true => exact .one hpending (Option.some.inj h)
      | false => exact hanswer hpending (Option.some.inj h)
    · cases h
  | openMaildropResult result =>
    simp only [step, openMaildropResult] at h
    split at h
    · rename_i hpending
      exact hanswer hpending (Option.some.inj h)
    · cases h
  | retrieveResult result =>
    obtain ⟨r', hr, h⟩ := Option.map_eq_some_iff.mp h
    have hact : (Move.retrieveResult result).act s e = r' := by
      simp only [Move.act, hr, Option.getD_some]
    rw [← hact] at h
    obtain ⟨msgnum, mode, -, hpending, -⟩ := messageGiven_some s hr
    exact hanswer ⟨msgnum, mode, hpending⟩ h
  | commitDeletionsResult ok =>
    simp only [step, commitDeletionsResult] at h
    split at h
    · rename_i hpending
      exact .one hpending (Option.some.inj h)
    · cases h

theorem run_history {is : List (Input ρ)} {e e' : Engine ρ} {acts : List (List (Pop3Action ρ))}
    (h : run s e is = some (e', acts)) : Cut s e (runMoments s e is) (e', acts.flatten) :=
  (Trace.Cut.run (step s) (stepMoments s) (P := fun _ => True) (fun _ => rfl)
    (fun e i _ => by rw [run]; cases step s i e <;> rfl) (fun _ => rfl)
    (fun _ _ _ _ h => by rw [runMoments, h]) (fun _ _ _ _ h => ⟨step_history s h, trivial⟩) trivial
    h).1

end

end Ionosphere.Pop3
