import Mathlib.Algebra.Order.BigOperators.Group.List
import Mathlib.Algebra.Order.Group.Nat
import Ionosphere.Mta.Terminal

/-! What becomes of an address that was refused for good. The worker enters the recipient of the
row as it was typed, unless there is a suppression of it already; `enqueueMessage` asks for the
recipient in lower case and passes over suppressions that have expired. -/
namespace Ionosphere.Mta

open Ionosphere.Js Ionosphere.Lib

variable {tenantId : Id} {rcpt : Text} {s : Suppression} {db : Db}

/-- A host refused the recipient, or the message, for good. -/
def SmtpClientResult.rejects (result : SmtpClientResult) (rcpt : Text) : Bool :=
  !(result.ok && result.rcptAccepted rcpt) && result.permanentFor rcpt

def session (w : World) (j i : Nat) : List QueueRow :=
  ((w.workers[j]?).bind fun x => x.sending[i]?).getD []

def rejections (w : World) (j i : Nat) (result : SmtpClientResult) : List (Id × Text) :=
  ((session w j i).filter fun r => result.rejects r.rcpt).map fun r => (r.tenantId, r.rcpt)

def Lasting (k : Id × Text) (db : Db) : Prop :=
  ∃ s ∈ db.suppressions, s.key = k ∧ s.expiresAt = none

def Unused (k : Id × Text) (db : Db) : Prop := ∀ s ∈ db.suppressions, s.key ≠ k

section

variable (u : CaseMap) (opts : WorkerOptions)

def Removes (tenantId : Id) (rcpt : Text) : Move → Prop
  | .suppressionRemove tenantId' email =>
    tenantId' = tenantId ∧ toLowerCase u email = toLowerCase u rcpt
  | _ => False

/-- Until the suppression is removed, every message of the tenant skips the address, in any
letter case. -/
def Effective (tenantId : Id) (rcpt : Text) (w : World) : Prop :=
  ∀ ms w', Schedule.run (step u opts) ms w = some w' → (∀ m ∈ ms, ¬ Removes u tenantId rcpt m) →
    ∀ (input : EnqueueInput) (ids : List Id), input.tenantId = tenantId →
      ∀ rcpt' ∈ input.rcpts, toLowerCase u rcpt' = toLowerCase u rcpt →
        rcpt' ∈ (enqueueMessage u input w'.time ids w'.db).2 ∧
          ∀ r ∈ input.rows u w'.time ids w'.db, r.rcpt ≠ rcpt'

end

section

variable {stmts : List Stmt}

theorem mem_exec_suppressions {st : Stmt} :
    s ∈ (st.exec db).suppressions ↔
      s ∈ db.suppressions ∨ (st = .suppress s ∧ Unused s.key db) := by
  cases st with
  | suppress row =>
    rw [Stmt.exec, Statements.insertIgnore]
    dsimp only
    split
    next hsome =>
      -- The key is taken: nothing is entered.
      refine ⟨.inl, fun h => h.elim id fun hst => ?_⟩
      obtain ⟨heq, hunused⟩ := hst
      cases heq
      rw [Statements.row_eq_none.mpr hunused] at hsome
      cases hsome
    next hnone =>
      rw [Bool.not_eq_true, Option.isSome_eq_false_iff, Option.isNone_iff_eq_none,
        Statements.row_eq_none] at hnone
      rw [List.mem_append, List.mem_singleton]
      constructor
      · rintro (h | rfl)
        · exact .inl h
        · exact .inr ⟨rfl, hnone⟩
      · rintro (h | ⟨heq, -⟩)
        · exact .inl h
        · cases heq
          exact .inr rfl
  | _ => simp [Stmt.exec]

theorem mem_batch_of_mem (stmts : List Stmt) (h : s ∈ db.suppressions) :
    s ∈ (batch stmts db).suppressions := by
  induction stmts generalizing db with
  | nil => exact h
  | cons st stmts ih => exact ih (mem_exec_suppressions.mpr (.inl h))

theorem mem_of_mem_batch (h : s ∈ (batch stmts db).suppressions) :
    s ∈ db.suppressions ∨ (.suppress s ∈ stmts ∧ Unused s.key db) := by
  induction stmts generalizing db with
  | nil => exact .inl h
  | cons st stmts ih =>
    rcases ih h with h | ⟨hmem, hunused⟩
    · rcases mem_exec_suppressions.mp h with h | ⟨rfl, hunused⟩
      · exact .inl h
      · exact .inr ⟨List.mem_cons_self, hunused⟩
    · refine .inr ⟨List.mem_cons_of_mem _ hmem, fun s' hs' => ?_⟩
      exact hunused s' (mem_exec_suppressions.mpr (.inl hs'))

theorem taken_batch (db : Db) (h : .suppress s ∈ stmts) :
    ∃ s' ∈ (batch stmts db).suppressions, s'.key = s.key := by
  induction stmts generalizing db with
  | nil => cases h
  | cons st stmts ih =>
    obtain rfl | h := List.mem_cons.mp h
    · have htaken : ∃ s' ∈ ((Stmt.suppress s).exec db).suppressions, s'.key = s.key := by
        by_cases hunused : Unused s.key db
        · exact ⟨s, mem_exec_suppressions.mpr (.inr ⟨rfl, hunused⟩), rfl⟩
        · rw [Unused] at hunused
          push Not at hunused
          obtain ⟨s', hs', hkey⟩ := hunused
          exact ⟨s', mem_exec_suppressions.mpr (.inl hs'), hkey⟩
      obtain ⟨s', hs', hkey⟩ := htaken
      have hlater := mem_batch_of_mem stmts hs'
      exact ⟨s', hlater, hkey⟩
    · exact ih _ h

theorem mem_settle_suppress {opts : WorkerOptions} {effects : QueueRow → Effects}
    (habout : About effects) {rows : List QueueRow} :
    .suppress s ∈ (settle opts effects rows).1 ↔ ∃ r ∈ rows, s ∈ (effects r).suppressRows := by
  rw [settle]
  dsimp only
  rw [List.mem_append]
  constructor
  · rintro (h | h)
    · obtain ⟨r, -, h⟩ := List.mem_flatMap.mp h
      cases habout r _ h
    · obtain ⟨r, hr, h⟩ := List.mem_flatMap.mp h
      obtain ⟨s', hs', heq⟩ := List.mem_map.mp h
      cases heq
      exact ⟨r, hr, hs'⟩
  · rintro ⟨r, hr, hs⟩
    exact .inr (List.mem_flatMap.mpr ⟨r, hr, List.mem_map_of_mem hs⟩)

end

section

variable {u : CaseMap} {opts : WorkerOptions} {result : SmtpClientResult} {now : Nat}
  {delay : Id → Nat} {r : QueueRow}

theorem outcomeOf_rejects (h : result.rejects r.rcpt = true) :
    (outcomeOf u opts result false now delay r).suppressRows =
      [⟨r.tenantId, r.rcpt, .hardBounce, now, none⟩] := by
  rw [SmtpClientResult.rejects, Bool.and_eq_true, Bool.not_eq_true'] at h
  rw [outcomeOf, if_neg (by simp [h.1]), if_pos h.2]
  rfl

theorem outcomeOf_suppress (hs : s ∈ (outcomeOf u opts result false now delay r).suppressRows) :
    s.key = (r.tenantId, r.rcpt) ∧ (s.expiresAt = none → result.rejects r.rcpt = true) := by
  rw [outcomeOf] at hs
  split at hs
  next => cases hs
  next hok =>
    split at hs
    next hperm =>
      cases List.mem_singleton.mp hs
      refine ⟨rfl, fun _ => ?_⟩
      rw [SmtpClientResult.rejects, hperm, Bool.and_true, Bool.not_eq_true']
      exact Bool.eq_false_iff.mpr hok
    next =>
      split at hs
      · cases List.mem_singleton.mp hs
        exact ⟨rfl, fun hnone => by cases hnone⟩
      · cases hs

theorem lasting_applyOutcome {rows : List QueueRow} {k : Id × Text} :
    Lasting k (batch (applyOutcome u opts rows result false now delay).1 db) ↔
      Lasting k db ∨ (Unused k db ∧
        k ∈ (rows.filter fun r => result.rejects r.rcpt).map fun r => (r.tenantId, r.rcpt)) := by
  have hsettle : ∀ s, .suppress s ∈ (applyOutcome u opts rows result false now delay).1 ↔
      ∃ r ∈ rows, s ∈ (outcomeOf u opts result false now delay r).suppressRows := fun s =>
    mem_settle_suppress (outcomeOf_about result false now delay)
  constructor
  · rintro ⟨s, hs, rfl, hexp⟩
    rcases mem_of_mem_batch hs with hs | ⟨hs, hunused⟩
    · exact .inl ⟨s, hs, rfl, hexp⟩
    · obtain ⟨r, hr, hs⟩ := (hsettle s).mp hs
      obtain ⟨hkey, hrejects⟩ := outcomeOf_suppress hs
      refine .inr ⟨hunused, List.mem_map.mpr ⟨r, ?_, hkey.symm⟩⟩
      exact List.mem_filter.mpr ⟨hr, hrejects hexp⟩
  · rintro (⟨s, hs, hkey, hexp⟩ | ⟨hunused, hk⟩)
    · exact ⟨s, mem_batch_of_mem _ hs, hkey, hexp⟩
    · obtain ⟨r, hr, rfl⟩ := List.mem_map.mp hk
      obtain ⟨hr, hrejects⟩ := List.mem_filter.mp hr
      have hmem : .suppress ⟨r.tenantId, r.rcpt, .hardBounce, now, none⟩ ∈
          (applyOutcome u opts rows result false now delay).1 := by
        rw [hsettle]
        exact ⟨r, hr, by rw [outcomeOf_rejects hrejects]; exact List.mem_singleton_self _⟩
      obtain ⟨s, hs, hkey⟩ := taken_batch db hmem
      refine ⟨s, hs, hkey, ?_⟩
      -- Whatever took the key was recorded for the same recipient, by the same session.
      rcases mem_of_mem_batch hs with hs | ⟨hs, -⟩
      · exact absurd hkey (hunused s hs)
      · obtain ⟨r', -, hs⟩ := (hsettle s).mp hs
        have heq : (r'.tenantId, r'.rcpt) = (r.tenantId, r.rcpt) :=
          (outcomeOf_suppress hs).1.symm.trans hkey
        rw [outcomeOf_rejects (by rw [(Prod.mk.inj heq).2]; exact hrejects)] at hs
        cases List.mem_singleton.mp hs
        rfl

end

section

variable {u : CaseMap} {opts : WorkerOptions} {w w' : World}

theorem mem_workerStep {j : Nat} {f : Worker → Option (Worker × List Stmt)}
    (hs : s ∈ w.db.suppressions) (hw : workerStep j w f = some w') :
    s ∈ w'.db.suppressions := by
  obtain ⟨x, -, hw⟩ := Option.bind_eq_some_iff.mp hw
  obtain ⟨out, -, rfl⟩ := Option.map_eq_some_iff.mp hw
  exact mem_batch_of_mem _ hs

theorem mem_step {m : Move}
    (hkey : s.key = (tenantId, toLowerCase u rcpt)) (hm : ¬ Removes u tenantId rcpt m)
    (hs : s ∈ w.db.suppressions) (hw : step u opts m w = some w') : s ∈ w'.db.suppressions := by
  cases m with
  | suppressionRemove tenantId' email =>
    cases hw
    refine List.mem_filter.mpr ⟨hs, ?_⟩
    rw [Bool.not_eq_true', Bool.eq_false_iff]
    intro hdel
    rw [Bool.and_eq_true, decide_eq_true_iff, decide_eq_true_iff] at hdel
    obtain ⟨htenant, hemail⟩ := Prod.mk.inj hkey
    exact hm ⟨hdel.1.symm.trans htenant, hdel.2.symm.trans hemail⟩
  | enqueueMessage input ids =>
    rw [step] at hw
    split at hw
    · cases hw
      exact hs
    · cases hw
  | lease j =>
    obtain ⟨x, -, rfl⟩ := Option.map_eq_some_iff.mp hw
    exact hs
  | sendDsn j =>
    obtain ⟨x, -, hw⟩ := Option.bind_eq_some_iff.mp hw
    obtain ⟨dsn, -, rfl⟩ := Option.map_eq_some_iff.mp hw
    exact hs
  | send j i cap => exact mem_workerStep hs hw
  | outcome j i result viaSmarthost delay => exact mem_workerStep hs hw
  | noAnswer j i delay => exact mem_workerStep hs hw
  | deferGroup j i delay => exact mem_workerStep hs hw
  | skipGroup j i => exact mem_workerStep hs hw
  | _ =>
    cases hw
    exact hs

theorem lasting_run {ms : List Move}
    (h : Lasting (tenantId, toLowerCase u rcpt) w.db)
    (hms : ∀ m ∈ ms, ¬ Removes u tenantId rcpt m)
    (hrun : Schedule.run (step u opts) ms w = some w') :
    Lasting (tenantId, toLowerCase u rcpt) w'.db := by
  refine (Schedule.always_of_all (fun m hm _ => hms m hm) w).invariant
    (P := fun w => Lasting (tenantId, toLowerCase u rcpt) w.db) h ?_ hrun
  rintro w₁ m w₂ ⟨s, hs, hkey, hexp⟩ hm hw
  exact ⟨s, mem_step hkey hm hs hw, hkey, hexp⟩

theorem Lasting.suppressed (h : Lasting (tenantId, toLowerCase u rcpt) db) (now : Nat) :
    suppressed u tenantId rcpt now db = true := by
  obtain ⟨s, hs, hkey, hexp⟩ := h
  obtain ⟨htenant, hemail⟩ := Prod.mk.inj hkey
  rw [Mta.suppressed, List.any_eq_true]
  exact ⟨s, hs, by simp [htenant, hemail, Suppression.active, hexp]⟩

theorem suppressed_of_lasting (now : Nat)
    (h : ∀ ms, suppressed u tenantId rcpt (now + ms) db = true) :
    Lasting (tenantId, toLowerCase u rcpt) db := by
  by_contra hlasting
  have hexp : ∀ s ∈ db.suppressions, s.key = (tenantId, toLowerCase u rcpt) →
      s.expiresAt.getD 0 ≤ (db.suppressions.map fun s => s.expiresAt.getD 0).sum := fun s hs _ =>
    List.single_le_sum (fun _ _ => Nat.zero_le _) _ (List.mem_map_of_mem hs)
  obtain ⟨s, hs, hs'⟩ := List.any_eq_true.mp
    (h (db.suppressions.map fun s => s.expiresAt.getD 0).sum)
  rw [Bool.and_eq_true, Bool.and_eq_true, decide_eq_true_iff, decide_eq_true_iff] at hs'
  obtain ⟨⟨htenant, hemail⟩, hactive⟩ := hs'
  have hkey : s.key = (tenantId, toLowerCase u rcpt) := Prod.ext htenant hemail
  cases he : s.expiresAt with
  | none => exact hlasting ⟨s, hs, hkey, he⟩
  | some e =>
    have hle := hexp s hs hkey
    rw [Suppression.active, he, Option.all_some, decide_eq_true_iff] at hactive
    rw [he, Option.getD_some] at hle
    omega

theorem effective_iff :
    Effective u opts tenantId rcpt w ↔ Lasting (tenantId, toLowerCase u rcpt) w.db := by
  constructor
  · intro h
    refine suppressed_of_lasting w.time fun ms => ?_
    have hrun : Schedule.run (step u opts) [.tick ms] w =
        some { w with time := w.time + ms } := rfl
    have hskip := (h _ _ hrun (by simp [Removes])
      { tenantId, blobId := [], envFrom := [], rcpts := [rcpt] } [] rfl rcpt
      (List.mem_singleton_self _) rfl).1
    exact (List.mem_filter.mp hskip).2
  · intro h ms w' hrun hms input ids htenant rcpt' hmem hlower
    have hsup : suppressed u input.tenantId rcpt' w'.time w'.db = true := by
      rw [htenant]
      apply Lasting.suppressed
      rw [hlower]
      exact lasting_run h hms hrun
    refine ⟨List.mem_filter.mpr ⟨hmem, hsup⟩, fun r hr heq => ?_⟩
    -- The rows are those of the recipients that are left.
    rw [EnqueueInput.rows, ← List.map_uncurry_zip_eq_zipWith] at hr
    obtain ⟨p, hp, rfl⟩ := List.mem_map.mp hr
    obtain ⟨-, hskip⟩ := List.mem_filter.mp (List.of_mem_zip hp).1
    have heq : p.1 = rcpt' := heq
    rw [heq, hsup] at hskip
    cases hskip

/-- A refusal for good by a host of the recipient keeps the tenant's messages from the address
just when the table had a suppression of it, in lower case, that does not expire, or else had
none whatsoever, and the session refused the address as it is in lower case. -/
theorem suppression_effective {j i : Nat} {result : SmtpClientResult} {delay : Id → Nat}
    (hw : step u opts (.outcome j i result false delay) w = some w') (tenantId : Id)
    (rcpt : Text) :
    Effective u opts tenantId rcpt w' ↔
      Lasting (tenantId, toLowerCase u rcpt) w.db ∨
        (Unused (tenantId, toLowerCase u rcpt) w.db ∧
          (tenantId, toLowerCase u rcpt) ∈ rejections w j i result) := by
  obtain ⟨x, hx, hw⟩ := Option.bind_eq_some_iff.mp hw
  obtain ⟨out, hout, rfl⟩ := Option.map_eq_some_iff.mp hw
  obtain ⟨g, hg, rfl⟩ := Option.map_eq_some_iff.mp hout
  have hsession : session w j i = g := by
    rw [session, hx, Option.bind_some, hg, Option.getD_some]
  rw [effective_iff, rejections, hsession]
  exact lasting_applyOutcome

end

def answer (code : Nat) (permanent : Bool) : SmtpClientResult :=
  ⟨false, code, permanent, [(['r', '@', 'b'], ⟨code, permanent⟩)]⟩

/-- A message is entered and a session with the recipient's host starts. -/
def firstSession : List Move :=
  [.enqueueMessage testInput [['q']], .runTick [['q']], .lease 0, .send 0 0 1]

theorem suppression_effective_refused :
    ∃ w w', Schedule.run (step ⟨id, id⟩ ⟨true, 8⟩) firstSession {} = some w ∧
      step ⟨id, id⟩ ⟨true, 8⟩ (.outcome 0 0 (answer 550 true) false fun _ => 0) w = some w' ∧
      Effective ⟨id, id⟩ ⟨true, 8⟩ ['t'] ['r', '@', 'b'] w' := by
  have hrun : (Schedule.run (step ⟨id, id⟩ ⟨true, 8⟩) firstSession {}).bind (fun w =>
      (step ⟨id, id⟩ ⟨true, 8⟩ (.outcome 0 0 (answer 550 true) false fun _ => 0) w).map fun _ =>
        (w.db.suppressions, rejections w 0 0 (answer 550 true))) =
      some ([], [(['t'], ['r', '@', 'b'])]) := by
    decide +kernel
  obtain ⟨w, hw, hrun⟩ := Option.bind_eq_some_iff.mp hrun
  obtain ⟨w', hw', hrun⟩ := Option.map_eq_some_iff.mp hrun
  obtain ⟨hnone, hrejects⟩ := Prod.mk.inj hrun
  refine ⟨w, w', hw, hw', (suppression_effective hw' ['t'] ['r', '@', 'b']).mpr (.inr ⟨?_, ?_⟩)⟩
  · intro s hs
    rw [hnone] at hs
    cases hs
  · rw [hrejects]
    decide

/-- The attempts for a first message are used up; when the suppression has expired, a session
for another message starts. -/
def secondSession : List Move :=
  firstSession ++ [Move.outcome 0 0 (answer 451 false) false (fun _ => 0),
    .tick SUPPRESSION_EXHAUSTED_TTL_MS, .enqueueMessage testInput [['p']], .runTick [['p']],
    .lease 1, .send 1 0 1]

theorem suppression_effective_fails :
    ¬ ∀ (u : CaseMap) (opts : WorkerOptions) (ms : List Move) (w w' : World) (j i : Nat)
      (result : SmtpClientResult) (delay : Id → Nat),
      Schedule.run (step u opts) ms {} = some w →
      step u opts (.outcome j i result false delay) w = some w' →
      ∀ k ∈ rejections w j i result, Effective u opts k.1 k.2 w' := by
  intro h
  have hrun : (Schedule.run (step ⟨id, id⟩ ⟨true, 1⟩) secondSession {}).bind (fun w =>
      (step ⟨id, id⟩ ⟨true, 1⟩ (.outcome 1 0 (answer 550 true) false fun _ => 0) w).map fun w' =>
        (rejections w 1 0 (answer 550 true), w'.db.suppressions.map Suppression.expiresAt)) =
      some ([(['t'], ['r', '@', 'b'])], [some SUPPRESSION_EXHAUSTED_TTL_MS]) := by
    decide +kernel
  obtain ⟨w, hw, hrun⟩ := Option.bind_eq_some_iff.mp hrun
  obtain ⟨w', hw', hrun⟩ := Option.map_eq_some_iff.mp hrun
  obtain ⟨hrejects, hexp⟩ := Prod.mk.inj hrun
  have heffective := h ⟨id, id⟩ ⟨true, 1⟩ secondSession w w' 1 0 (answer 550 true) _ hw hw'
    (['t'], ['r', '@', 'b']) (by rw [hrejects]; exact List.mem_singleton_self _)
  -- The suppression that has expired is still the only one.
  obtain ⟨s, hs, -, hnone⟩ := effective_iff.mp heffective
  have hmem := List.mem_map_of_mem (f := Suppression.expiresAt) hs
  rw [hexp, List.mem_singleton, hnone] at hmem
  cases hmem

end Ionosphere.Mta
