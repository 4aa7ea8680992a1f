import Ionosphere.Lib.Ledger
import Ionosphere.Lib.Schedule
import Ionosphere.Server.Sync
import Ionosphere.Store.Changes
import Ionosphere.Store.Retention

/-! Readers and retention cycles at the same time. A reader looks at a floor and then at the
log or the tombstones; a cycle reads, raises and deletes in batches of its own; operations are
committed in between. Beside the database a world has what the change log and the tombstones
would be if retention had deleted nothing. -/
namespace Ionosphere.Server

open Ionosphere.Js Ionosphere.Lib Ionosphere.Store

variable {db db' : Db} {stmts : List Stmt} {op : Op} {env : Env} {i cutoff : Nat} {b : Id}

/-- Between which of its statements a cycle is. -/
inductive Phase where
  | started
  | floorRead (floor : Option Nat)
  | floorRaised
  | floorsRead (floors : List (Id × Nat))
  | floorsRaised
  | done
  deriving DecidableEq

structure Sweep where
  cutoffs : Cutoffs
  phase : Phase := .started
  deriving DecidableEq

variable {s : Sweep}

namespace Sweep

/-- The next statement of `runRetention`; `none` when it is through. -/
def advance (s : Sweep) (db : Db) : Option (Sweep × Db) :=
  match s.phase with
  | .started => some ({ s with phase := .floorRead (expiredFloor s.cutoffs.changeLog db) }, db)
  | .floorRead floor => some ({ s with phase := .floorRaised }, raiseChangelogFloor floor db)
  | .floorRaised =>
    some ({ s with phase := .floorsRead (expiredMailboxFloors s.cutoffs.expunged db) }, db)
  | .floorsRead floors => some ({ s with phase := .floorsRaised }, raiseExpungedFloors floors db)
  | .floorsRaised => some ({ s with phase := .done }, deleteExpired s.cutoffs db)
  | .done => none

def logRead (s : Sweep) : Bool :=
  match s.phase with
  | .started | .done => false
  | _ => true

def tombsRead (s : Sweep) : Bool :=
  match s.phase with
  | .floorsRead _ | .floorsRaised => true
  | _ => false

def logRaised (s : Sweep) : Bool :=
  match s.phase with
  | .floorRaised | .floorsRead _ | .floorsRaised => true
  | _ => false

def tombsRaised (s : Sweep) : Bool := s.phase = .floorsRaised

end Sweep

structure World where
  db : Db
  /-- The change log without retention. -/
  log : List ChangeRow := []
  /-- The tombstones without retention. -/
  tombs : List Expunged := []
  sweeps : List Sweep := []

/-- The database as it would be if retention had deleted nothing. -/
def World.whole (w : World) : Db := { w.db with changeLog := w.log, expunged := w.tombs }

inductive Action where
  | commit (op : Op) (env : Env)
  | begin (cutoffs : Cutoffs)
  | advance (i : Nat)

variable {actions : List Action}

def Action.step (u : CaseMap) : Action → World → Option World
  | commit op env, w =>
    match (op.attempt u env).on w.db with
    | .error _ => none
    | .ok plan => (batch plan.stmts w.db).map fun db =>
      { w with
        db := db
        log := across Stmt.onChangeLog plan.stmts w.log
        tombs := across Stmt.onExpunged plan.stmts w.tombs }
  | begin cutoffs, w => some { w with sweeps := w.sweeps ++ [⟨cutoffs, .started⟩] }
  | advance i, w =>
    (w.sweeps[i]?).bind fun s => (s.advance w.db).map fun r =>
      { w with db := r.2, sweeps := w.sweeps.set i r.1 }

abbrev run (u : CaseMap) : List Action → World → Option World := Schedule.run (Action.step u)

abbrev Always (u : CaseMap) (ok : World → Action → Prop) : List Action → World → Prop :=
  Schedule.Always (Action.step u) ok

/-- What is committed while a cycle has read and not deleted is not expired for that cycle. -/
def Timely (w : World) : Action → Prop
  | .commit _ env => ∀ s ∈ w.sweeps, (s.logRead = true → s.cutoffs.changeLog ≤ env.now) ∧
      (s.tombsRead = true → s.cutoffs.expunged ≤ env.now)
  | _ => True

def Action.deletes (w : World) : Action → Option Nat
  | advance i => if (w.sweeps[i]?).any fun s => s.phase = .floorsRaised then some i else none
  | _ => none

/-- No cycle deletes that had not raised the floors, as `raised` tells, in the world `w₁`. -/
def RaisedBefore (raised : Sweep → Bool) (w₁ w : World) (a : Action) : Prop :=
  ∀ i, a.deletes w = some i → (w₁.sweeps[i]?).any raised = true

def through {α : Type} : Reads α → List Db → Option (Except StoreError α)
  | .done a, _ => some (.ok a)
  | .throw err, _ => some (.error err)
  | .query _, [] => none
  | .query k, db :: dbs => through (k db) dbs

def logStage (s : Sweep) : Ledger.Stage :=
  match s.phase with
  | .started => .waiting
  | .floorRead floor => .read s.cutoffs.changeLog (floor.getD 0)
  | .floorRaised | .floorsRead _ | .floorsRaised => .raised s.cutoffs.changeLog
  | .done => .done

def boundOf (b : Id) (floors : List (Id × Nat)) : Nat :=
  maxModseq ((floors.filter fun p => p.1 = b).map (·.2))

def tombsStage (b : Id) (s : Sweep) : Ledger.Stage :=
  match s.phase with
  | .started | .floorRead _ | .floorRaised => .waiting
  | .floorsRead floors => .read s.cutoffs.expunged (boundOf b floors)
  | .floorsRaised => .raised s.cutoffs.expunged
  | .done => .done

def stagesOf (stage : Sweep → Ledger.Stage) (sweeps : List Sweep) (i : Nat) : Ledger.Stage :=
  ((sweeps[i]?).map stage).getD .waiting

def tombsOf (b : Id) (t : List Expunged) : List Expunged := t.filter fun x => x.mailboxId = b

def floorOf (b : Id) (db : Db) : Nat :=
  ((db.mailboxes.find? fun row => row.id = b).map (·.expungedFloor)).getD 0

def logLedger (w : World) : Ledger.State ChangeRow :=
  ⟨w.db.changeLog, w.log, w.db.account.changelogFloor, stagesOf logStage w.sweeps⟩

def tombsLedger (b : Id) (w : World) : Ledger.State Expunged :=
  ⟨tombsOf b w.db.expunged, tombsOf b w.tombs, floorOf b w.db, stagesOf (tombsStage b) w.sweeps⟩

section

variable {stage : Sweep → Ledger.Stage} {sweeps : List Sweep}

theorem stagesOf_append (h : stage s = .waiting) :
    stagesOf stage (sweeps ++ [s]) = stagesOf stage sweeps := by
  funext i
  rw [stagesOf, stagesOf, List.getElem?_append]
  split
  · rfl
  · rename_i hlen
    rw [List.getElem?_eq_none (by omega : sweeps.length ≤ i)]
    cases hi : i - sweeps.length with
    | zero => simp [h]
    | succ n => simp

theorem stagesOf_set (hi : sweeps[i]? = some s) (s' : Sweep) :
    stagesOf stage (sweeps.set i s') = Function.update (stagesOf stage sweeps) i (stage s') := by
  obtain ⟨hlt, -⟩ := List.getElem?_eq_some_iff.mp hi
  funext j
  rw [Function.update_apply, stagesOf, List.getElem?_set]
  by_cases hij : i = j
  · subst hij
    simp [hlt]
  · rw [if_neg hij, if_neg (Ne.symm hij), stagesOf]

theorem stagesOf_of_get (hi : sweeps[i]? = some s) :
    stagesOf stage sweeps i = stage s := by
  rw [stagesOf, hi, Option.map_some, Option.getD_some]

theorem stagesOf_same {s s' : Sweep} (hi : sweeps[i]? = some s) (h : stage s' = stage s) :
    stagesOf stage (sweeps.set i s') = stagesOf stage sweeps := by
  have hold : stagesOf stage sweeps i = stage s := stagesOf_of_get hi
  rw [stagesOf_set hi, h, ← hold, Function.update_eq_self]

theorem mem_of_stagesOf (h : stagesOf stage sweeps i ≠ .waiting) :
    ∃ s ∈ sweeps, sweeps[i]? = some s ∧ stagesOf stage sweeps i = stage s := by
  cases hi : sweeps[i]? with
  | none =>
    rw [stagesOf, hi] at h
    exact absurd rfl h
  | some s => exact ⟨s, List.mem_of_getElem? hi, rfl, stagesOf_of_get hi⟩

end

theorem across_changeLog (stmts : List Stmt) :
    ∃ new, (∀ t, across Stmt.onChangeLog stmts t = t ++ new) ∧
      ∀ r ∈ new, Sends (Stmt.Logs r) stmts := by
  induction stmts with
  | nil => exact ⟨[], by simp, by simp⟩
  | cons s stmts ih =>
    obtain ⟨new, hnew, hlogs⟩ := ih
    cases s with
    | changeLog row =>
      refine ⟨row :: new, fun t => ?_, ?_⟩
      · rw [across_cons, hnew, Stmt.onChangeLog, List.append_assoc, List.singleton_append]
      · rw [List.forall_mem_cons]
        exact ⟨⟨_, List.mem_cons_self, rfl⟩,
          fun r hr => (sends_cons _ stmts).mpr (.inr (hlogs r hr))⟩
    | _ => exact ⟨new, hnew, fun r hr => (sends_cons _ stmts).mpr (.inr (hlogs r hr))⟩

theorem across_tombs (b : Id) (stmts : List Stmt) :
    ∃ new, (∀ x ∈ new, Sends (Stmt.Buries x) stmts) ∧
      (Sends (Stmt.Clears b) stmts → ∀ t, tombsOf b (across Stmt.onExpunged stmts t) = new) ∧
      (¬ Sends (Stmt.Clears b) stmts →
        ∀ t, tombsOf b (across Stmt.onExpunged stmts t) = tombsOf b t ++ new) := by
  induction stmts with
  | nil => exact ⟨[], by simp, by simp, by simp⟩
  | cons s stmts ih =>
    obtain ⟨new, hburies, hgone, hkept⟩ := ih
    simp only [sends_cons, across_cons, not_or]
    by_cases hclears : Sends (Stmt.Clears b) stmts
    · refine ⟨new, fun x hx => .inr (hburies x hx), fun _ t => hgone hclears _, ?_⟩
      exact fun hnot => absurd hclears hnot.2
    · have hkept := hkept hclears
      cases s with
      | insertExpunged rows =>
        refine ⟨tombsOf b rows ++ new, ?_, fun h => (h.elim id hclears).elim, fun _ t => ?_⟩
        · rw [List.forall_mem_append]
          exact ⟨fun x hx => .inl (List.mem_of_mem_filter hx), fun x hx => .inr (hburies x hx)⟩
        · rw [hkept, Stmt.onExpunged, tombsOf, List.filter_append, List.append_assoc]
          rfl
      | deleteExpunged mailboxId =>
        refine ⟨new, fun x hx => .inr (hburies x hx), fun h t => ?_, fun h t => ?_⟩
        · have hb : b = mailboxId := h.resolve_right hclears
          have hnone : tombsOf b (Stmt.onExpunged (.deleteExpunged mailboxId) t) = [] := by
            rw [tombsOf, List.filter_eq_nil_iff]
            intro x hx
            have := (List.mem_filter.mp hx).2
            simpa [hb] using this
          rw [hkept, hnone, List.nil_append]
        · have hb : b ≠ mailboxId := h.1
          have hsame : tombsOf b (Stmt.onExpunged (.deleteExpunged mailboxId) t) = tombsOf b t := by
            rw [tombsOf, Stmt.onExpunged, List.filter_filter, tombsOf]
            apply List.filter_congr
            intro x _
            by_cases hx : x.mailboxId = b
            · simp [hx, hb]
            · simp [hx]
          rw [hkept, hsame]
      | _ =>
        exact ⟨new, fun x hx => .inr (hburies x hx), fun h => (h.elim id hclears).elim,
          fun _ => hkept⟩

theorem across_changelogFloor (stmts : List Stmt) (a : AccountRow) :
    (across Stmt.onAccount stmts a).changelogFloor = a.changelogFloor := by
  induction stmts generalizing a with
  | nil => rfl
  | cons s stmts ih =>
    rw [across_cons, ih]
    cases s <;> rfl

theorem logs_now {next now : Nat} (h : ∀ s ∈ stmts, s.Stamped next now)
    {r : ChangeRow} (hr : Sends (Stmt.Logs r) stmts) : r.createdAt = now := by
  obtain ⟨s, hs, hlogs⟩ := hr
  have hstamp := h s hs
  cases s with
  | changeLog row =>
    cases hlogs
    exact hstamp.2
  | _ => exact absurd hlogs id

theorem buries_now {next now : Nat} (h : ∀ s ∈ stmts, s.Stamped next now)
    {x : Expunged} (hx : Sends (Stmt.Buries x) stmts) : x.createdAt = now := by
  obtain ⟨s, hs, hburies⟩ := hx
  have hstamp := h s hs
  cases s with
  | insertExpunged rows => exact (hstamp x hburies).2
  | _ => exact absurd hburies id

theorem floorOf_eq (hdb : Keyed db) {row : MailboxRow} (hrow : row ∈ db.mailboxes) :
    floorOf row.id db = row.expungedFloor := by
  cases hfind : db.mailboxes.find? fun r => r.id = row.id with
  | none =>
    have := List.find?_eq_none.mp hfind row hrow
    simp at this
  | some row' =>
    have hid : row'.id = row.id := by simpa using List.find?_some hfind
    have heq := List.inj_on_of_nodup_map hdb.mailbox (List.mem_of_find?_eq_some hfind) hrow hid
    rw [floorOf, hfind, heq, Option.map_some, Option.getD_some]

theorem floorOf_none (h : ∀ row ∈ db.mailboxes, row.id ≠ b) :
    floorOf b db = 0 := by
  have hfind : (db.mailboxes.find? fun row => row.id = b) = none := by
    rw [List.find?_eq_none]
    intro row hrow
    simpa using h row hrow
  rw [floorOf, hfind, Option.map_none, Option.getD_none]

theorem floorOf_batch (hdb : Sound db)
    (hobs : Observes db (db.account.modseq + 1) stmts) (hev : Evolves db db')
    (h : batch stmts db = some db') (hopen : ¬ Sends (Stmt.Clears b) stmts) :
    floorOf b db' = floorOf b db := by
  have hkeyed := batch_keyed hdb.keyed h
  by_cases hold : ∃ row ∈ db.mailboxes, row.id = b
  · obtain ⟨row, hrow, rfl⟩ := hold
    rw [hobs.houses.cleared] at hopen
    obtain ⟨row', hrow', hsame⟩ := mailboxes_stay hrow hopen
    rw [← batch_mailboxes h] at hrow'
    rw [floorOf_eq hdb.keyed hrow, ← hsame.floor, ← hsame.id, floorOf_eq hkeyed hrow']
  · have hnone : ∀ row ∈ db.mailboxes, row.id ≠ b := fun row hrow hid => hold ⟨row, hrow, hid⟩
    rw [floorOf_none hnone]
    by_cases hnew : ∃ row ∈ db'.mailboxes, row.id = b
    · obtain ⟨row, hrow, rfl⟩ := hnew
      rw [floorOf_eq hkeyed hrow]
      rcases hev.mailbox row hrow with ⟨row₀, hrow₀, hsame, -⟩ | ⟨-, -, hzero, -⟩
      · exact absurd hsame.id.symm (hnone row₀ hrow₀)
      · exact hzero
    · exact floorOf_none fun row hrow hid => hnew ⟨row, hrow, hid⟩

theorem le_boundOf {n : Nat} {floors : List (Id × Nat)} (h : (b, n) ∈ floors) :
    n ≤ boundOf b floors := by
  apply le_maxModseq
  exact List.mem_map.mpr ⟨(b, n), List.mem_filter.mpr ⟨h, by simp⟩, rfl⟩

theorem foldl_max_le {xs : List Nat} {m n : Nat} (hm : m ≤ n) (h : ∀ x ∈ xs, x ≤ n) :
    xs.foldl max m ≤ n := by
  induction xs generalizing m with
  | nil => exact hm
  | cons x xs ih =>
    rw [List.forall_mem_cons] at h
    exact ih (Nat.max_le.mpr ⟨hm, h.1⟩) h.2

theorem floorOf_raise (hdb : Keyed db) (floors : List (Id × Nat)) {row : MailboxRow}
    (hrow : row ∈ db.mailboxes) :
    row.expungedFloor ≤ floorOf row.id (raiseExpungedFloors floors db) ∧
      boundOf row.id floors ≤ floorOf row.id (raiseExpungedFloors floors db) := by
  have hraised := raised_foldl floors row
  have hkeyed := (swept_raiseExpungedFloors floors db).keyed hdb
  have hin : floors.foldl MailboxRow.raiseFloor row ∈ (raiseExpungedFloors floors db).mailboxes :=
    List.mem_map_of_mem hrow
  rw [← hraised.id, floorOf_eq hkeyed hin, hraised.id]
  refine ⟨hraised.floor, foldl_max_le (Nat.zero_le _) fun n hn => ?_⟩
  obtain ⟨⟨b, m⟩, hp, rfl⟩ := List.mem_map.mp hn
  obtain ⟨hp, hb⟩ := List.mem_filter.mp hp
  have hb' : b = row.id := by simpa using hb
  exact le_foldl_raiseFloor (hb' ▸ hp)

theorem raiseChangelogFloor_spec (floor : Option Nat) (db : Db) :
    ∃ a, raiseChangelogFloor floor db = { db with account := a } ∧
      db.account.changelogFloor ≤ a.changelogFloor ∧ floor.getD 0 ≤ a.changelogFloor := by
  rw [raiseChangelogFloor.eq_def]
  dsimp only
  split
  · exact ⟨db.account, rfl, Nat.le_refl _, Nat.zero_le _⟩
  · split
    · rename_i n hlt
      exact ⟨_, rfl, hlt.le, Nat.le_refl _⟩
    · rename_i n hlt
      exact ⟨db.account, rfl, Nat.le_refl _, Nat.le_of_not_lt hlt⟩

section

variable {u : CaseMap} {w w' : World}

theorem commit_spec (h : (Action.commit op env).step u w = some w') :
    ∃ plan db', (op.attempt u env).on w.db = .ok plan ∧ batch plan.stmts w.db = some db' ∧
      w' = { w with
        db := db'
        log := across Stmt.onChangeLog plan.stmts w.log
        tombs := across Stmt.onExpunged plan.stmts w.tombs } := by
  rw [Action.step] at h
  split at h
  · cases h
  · rename_i plan hon
    obtain ⟨db', hbatch, rfl⟩ := Option.map_eq_some_iff.mp h
    exact ⟨plan, db', hon, hbatch, rfl⟩

theorem advance_spec (h : (Action.advance i).step u w = some w') :
    ∃ s s' db', w.sweeps[i]? = some s ∧ s.advance w.db = some (s', db') ∧
      w' = { w with db := db', sweeps := w.sweeps.set i s' } := by
  rw [Action.step] at h
  obtain ⟨s, hs, h⟩ := Option.bind_eq_some_iff.mp h
  obtain ⟨⟨s', db'⟩, hadvance, rfl⟩ := Option.map_eq_some_iff.mp h
  exact ⟨s, s', db', hs, hadvance, rfl⟩

theorem Sweep.advance_cases {s s' : Sweep} (h : s.advance db = some (s', db')) :
    (s.phase = .started ∧ s'.phase = .floorRead (expiredFloor s.cutoffs.changeLog db) ∧ db' = db ∨
      (∃ floor, s.phase = .floorRead floor ∧ s'.phase = .floorRaised ∧
        db' = raiseChangelogFloor floor db) ∨
      s.phase = .floorRaised ∧ db' = db ∧
        s'.phase = .floorsRead (expiredMailboxFloors s.cutoffs.expunged db) ∨
      (∃ floors, s.phase = .floorsRead floors ∧ s'.phase = .floorsRaised ∧
        db' = raiseExpungedFloors floors db) ∨
      s.phase = .floorsRaised ∧ s'.phase = .done ∧ db' = deleteExpired s.cutoffs db) ∧
      s'.cutoffs = s.cutoffs := by
  rw [Sweep.advance] at h
  split at h
  case h_6 => cases h
  all_goals
    rename_i hphase
    cases h
    refine ⟨?_, rfl⟩
  · exact .inl ⟨hphase, rfl, rfl⟩
  · exact .inr (.inl ⟨_, hphase, rfl, rfl⟩)
  · exact .inr (.inr (.inl ⟨hphase, rfl, rfl⟩))
  · exact .inr (.inr (.inr (.inl ⟨_, hphase, rfl, rfl⟩)))
  · exact .inr (.inr (.inr (.inr ⟨hphase, rfl, rfl⟩)))

theorem Sweep.advance_swept {s s' : Sweep} (h : s.advance db = some (s', db')) :
    Swept db db' := by
  have hsame : Swept db db := by
    have hnone : raiseChangelogFloor none db = db := rfl
    exact hnone ▸ swept_raiseChangelogFloor none db
  obtain ⟨⟨-, -, rfl⟩ | ⟨floor, -, -, rfl⟩ | ⟨-, rfl, -⟩ | ⟨floors, -, -, rfl⟩ | ⟨-, -, rfl⟩, -⟩ :=
    Sweep.advance_cases h
  · exact hsame
  · exact swept_raiseChangelogFloor floor db
  · exact hsame
  · exact swept_raiseExpungedFloors floors db
  · exact swept_deleteExpired s.cutoffs db

theorem step_sound {a : Action} (hdb : Sound w.db) (h : a.step u w = some w') : Sound w'.db := by
  cases a with
  | commit op env =>
    obtain ⟨plan, db', hon, hbatch, rfl⟩ := commit_spec h
    exact hdb.commits ⟨plan, hon, hbatch⟩
  | begin cutoffs =>
    cases h
    exact hdb
  | advance i =>
    obtain ⟨s, s', db', -, hadvance, rfl⟩ := advance_spec h
    exact hdb.swept (Sweep.advance_swept hadvance)

theorem logRead_of_waits (h : (stagesOf logStage w.sweeps i).Waits cutoff) :
    ∃ s ∈ w.sweeps, s.logRead = true ∧ s.cutoffs.changeLog = cutoff := by
  have hne : stagesOf logStage w.sweeps i ≠ .waiting := by
    intro hw
    rw [hw] at h
    exact h
  obtain ⟨s, hs, -, hstage⟩ := mem_of_stagesOf hne
  rw [hstage, logStage] at h
  refine ⟨s, hs, ?_⟩
  rw [Sweep.logRead]
  split at h
  case h_1 | h_6 => exact absurd h id
  all_goals
    rename_i hphase
    rw [hphase]
    exact ⟨rfl, h⟩

theorem tombsRead_of_waits (h : (stagesOf (tombsStage b) w.sweeps i).Waits cutoff) :
    ∃ s ∈ w.sweeps, s.tombsRead = true ∧ s.cutoffs.expunged = cutoff := by
  have hne : stagesOf (tombsStage b) w.sweeps i ≠ .waiting := by
    intro hw
    rw [hw] at h
    exact h
  obtain ⟨s, hs, -, hstage⟩ := mem_of_stagesOf hne
  rw [hstage, tombsStage] at h
  refine ⟨s, hs, ?_⟩
  rw [Sweep.tombsRead]
  split at h
  case h_4 | h_5 =>
    rename_i hphase
    rw [hphase]
    exact ⟨rfl, h⟩
  all_goals exact absurd h id

theorem commit_log (htime : Timely w (.commit op env))
    (h : (Action.commit op env).step u w = some w') :
    Ledger.Step (fun r => r.modseq) (fun r => r.createdAt) (logLedger w) (logLedger w') := by
  obtain ⟨plan, db', hon, hbatch, rfl⟩ := commit_spec h
  obtain ⟨new, hnew, hlogs⟩ := across_changeLog plan.stmts
  have hrows : db'.changeLog = w.db.changeLog ++ new := by
    rw [batch_eq hbatch, applyAll_eq, ← hnew]
  have hfloor : db'.account.changelogFloor = w.db.account.changelogFloor := by
    rw [batch_account hbatch, across_changelogFloor]
  rw [logLedger, logLedger, hrows, hfloor, hnew]
  apply Ledger.Step.write (s := ⟨w.db.changeLog, w.log, _, stagesOf logStage w.sweeps⟩)
  intro i cutoff hwaits r hr
  obtain ⟨s, hs, hread, hcut⟩ := logRead_of_waits hwaits
  rw [logs_now (planned hon).stamped (hlogs r hr), ← hcut]
  exact (htime s hs).1 hread

theorem commit_tombs (b : Id) (hdb : Sound w.db)
    (htime : Timely w (.commit op env)) (h : (Action.commit op env).step u w = some w') :
    Ledger.Step (fun x => x.modseq) (fun x => x.createdAt) (tombsLedger b w) (tombsLedger b w') := by
  obtain ⟨plan, db', hon, hbatch, rfl⟩ := commit_spec h
  have hplanned := planned hon
  have hobs := hplanned.observes hdb.keyed hdb.attached
  obtain ⟨new, hburies, hgone, hkept⟩ := across_tombs b plan.stmts
  have hfresh : ∀ i cutoff, (stagesOf (tombsStage b) w.sweeps i).Waits cutoff →
      ∀ x ∈ new, cutoff ≤ x.createdAt := by
    intro i cutoff hwaits x hx
    obtain ⟨s, hs, hread, hcut⟩ := tombsRead_of_waits hwaits
    rw [buries_now hplanned.stamped (hburies x hx), ← hcut]
    exact (htime s hs).2 hread
  have hexpunged := batch_expunged hbatch
  by_cases hclears : Sends (Stmt.Clears b) plan.stmts
  · have hnew := hgone hclears
    rw [tombsLedger, tombsLedger, hexpunged, hnew, hnew]
    exact Ledger.Step.restart
      (s := ⟨tombsOf b w.db.expunged, _, floorOf b w.db, stagesOf (tombsStage b) w.sweeps⟩)
      new (floorOf b db') hfresh
  · have hnew := hkept hclears
    have hfloor := floorOf_batch hdb hobs (Commits.evolves hdb ⟨plan, hon, hbatch⟩) hbatch hclears
    rw [tombsLedger, tombsLedger, hexpunged, hfloor, hnew, hnew]
    exact Ledger.Step.write (s := ⟨tombsOf b w.db.expunged, _, _, stagesOf (tombsStage b) w.sweeps⟩)
      new hfresh

theorem advance_log (h : (Action.advance i).step u w = some w') :
    Ledger.Step (fun r => r.modseq) (fun r => r.createdAt) (logLedger w) (logLedger w') := by
  obtain ⟨s, s', db', hs, hadvance, rfl⟩ := advance_spec h
  have hold : stagesOf logStage w.sweeps i = logStage s := stagesOf_of_get hs
  have hset : stagesOf logStage (w.sweeps.set i s') = _ := stagesOf_set hs s'
  have hsame : logStage s' = logStage s → stagesOf logStage (w.sweeps.set i s') = _ :=
    stagesOf_same hs
  rw [logLedger, logLedger]
  dsimp only
  obtain ⟨hphases, hcut⟩ := Sweep.advance_cases hadvance
  rcases hphases with ⟨hp, hp', rfl⟩ | ⟨floor, hp, hp', rfl⟩ | ⟨hp, rfl, hp'⟩ |
    ⟨floors, hp, hp', rfl⟩ | ⟨hp, hp', rfl⟩
  · rw [hset, logStage, hp', hcut]
    refine Ledger.Step.read (s := ⟨_, _, _, stagesOf logStage w.sweeps⟩) i _ _ ?_ fun r hr hlt => ?_
    · exact hold.trans (by rw [logStage, hp])
    · obtain ⟨n, hn, hle⟩ := le_expiredFloor hr hlt
      rw [hn]
      exact hle
  · obtain ⟨a, ha, hle, hbound⟩ := raiseChangelogFloor_spec floor w.db
    rw [hset, logStage, hp', hcut, ha]
    refine Ledger.Step.raise (s := ⟨_, _, _, stagesOf logStage w.sweeps⟩) i _ (floor.getD 0) _ ?_ hle
      fun hcov => hcov.mono hbound
    exact hold.trans (by rw [logStage, hp])
  · rw [hsame (by rw [logStage, logStage, hp, hp', hcut])]
    exact .same
  · rw [hsame (by rw [logStage, logStage, hp, hp', hcut])]
    exact .same
  · rw [hset, logStage, hp']
    refine Ledger.Step.delete (s := ⟨_, _, _, stagesOf logStage w.sweeps⟩) i _ ?_
    exact hold.trans (by rw [logStage, hp])

theorem advance_tombs (b : Id) (hdb : Sound w.db)
    (h : (Action.advance i).step u w = some w') :
    Ledger.Step (fun x => x.modseq) (fun x => x.createdAt) (tombsLedger b w) (tombsLedger b w') := by
  obtain ⟨s, s', db', hs, hadvance, rfl⟩ := advance_spec h
  have hold : stagesOf (tombsStage b) w.sweeps i = tombsStage b s := stagesOf_of_get hs
  have hset : stagesOf (tombsStage b) (w.sweeps.set i s') = _ := stagesOf_set hs s'
  have hsame : tombsStage b s' = tombsStage b s → stagesOf (tombsStage b) (w.sweeps.set i s') = _ :=
    stagesOf_same hs
  rw [tombsLedger, tombsLedger]
  dsimp only
  obtain ⟨hphases, hcut⟩ := Sweep.advance_cases hadvance
  rcases hphases with ⟨hp, hp', rfl⟩ | ⟨floor, hp, hp', rfl⟩ | ⟨hp, rfl, hp'⟩ |
    ⟨floors, hp, hp', rfl⟩ | ⟨hp, hp', rfl⟩
  · rw [hsame (by rw [tombsStage, tombsStage, hp, hp'])]
    exact .same
  · obtain ⟨a, ha, -⟩ := raiseChangelogFloor_spec floor w.db
    rw [hsame (by rw [tombsStage, tombsStage, hp, hp']), ha]
    exact .same
  · rw [hset, tombsStage, hp', hcut]
    refine Ledger.Step.read (s := ⟨_, _, _, stagesOf (tombsStage b) w.sweeps⟩) i _ _ ?_
      fun x hx hlt => ?_
    · exact hold.trans (by rw [tombsStage, hp])
    · obtain ⟨hx, hb⟩ := List.mem_filter.mp hx
      have hb : x.mailboxId = b := by simpa using hb
      obtain ⟨n, hn, hle⟩ := mem_expiredMailboxFloors hx hlt
      exact hle.trans (le_boundOf (hb ▸ hn))
  · rw [hset, tombsStage, hp', hcut]
    have hstage : stagesOf (tombsStage b) w.sweeps i = .read s.cutoffs.expunged (boundOf b floors) := by
      rw [hold, tombsStage, hp]
    by_cases hrow : ∃ row ∈ w.db.mailboxes, row.id = b
    · obtain ⟨row, hrow, rfl⟩ := hrow
      obtain ⟨hle, hbound⟩ := floorOf_raise hdb.keyed floors hrow
      rw [← floorOf_eq hdb.keyed hrow] at hle
      exact Ledger.Step.raise (s := ⟨_, _, _, stagesOf (tombsStage row.id) w.sweeps⟩) i _ _ _ hstage
        hle fun hcov => hcov.mono hbound
    · -- Without the mailbox there is no tombstone of it either.
      have hnone : ∀ row ∈ w.db.mailboxes, row.id ≠ b := fun row hin hid => hrow ⟨row, hin, hid⟩
      have hfloor : floorOf b w.db = 0 := floorOf_none hnone
      refine Ledger.Step.raise (s := ⟨_, _, _, stagesOf (tombsStage b) w.sweeps⟩) i _ _ _ hstage
        (hfloor ▸ Nat.zero_le _) fun _ x hx => ?_
      obtain ⟨hx, hb⟩ := List.mem_filter.mp hx
      obtain ⟨row, hin, hid, -⟩ := hdb.expunged x hx
      exact absurd (hid.trans (by simpa using hb)) (hnone row hin)
  · have hrows : tombsOf b (deleteExpired s.cutoffs w.db).expunged =
        (tombsOf b w.db.expunged).filter fun x => s.cutoffs.expunged ≤ x.createdAt := by
      rw [tombsOf, tombsOf, deleteExpired, List.filter_comm]
    rw [hset, tombsStage, hp', hrows]
    refine Ledger.Step.delete (s := ⟨_, _, _, stagesOf (tombsStage b) w.sweeps⟩) i _ ?_
    exact hold.trans (by rw [tombsStage, hp])

end

/-- What the ledger of a world goes through is what happens to the world. -/
structure Tracks {α : Type} (u : CaseMap) (number time : α → Nat) (ledger : World → Ledger.State α)
    (stage : Sweep → Ledger.Stage) (raised : Sweep → Bool) : Prop where
  stages : ∀ w, (ledger w).stages = stagesOf stage w.sweeps
  waiting : ∀ cutoffs, stage ⟨cutoffs, .started⟩ = .waiting
  done : ∀ s, stage s = .done → s.phase = .done
  raised : ∀ s, raised s = true → ∃ cutoff, stage s = .raised cutoff
  step : ∀ {w w' a}, Sound w.db → Timely w a → Action.step u a w = some w' →
    Ledger.Step number time (ledger w) (ledger w')

theorem tracks_log (u : CaseMap) :
    Tracks u (fun r => r.modseq) (fun r => r.createdAt) logLedger logStage Sweep.logRaised where
  stages _ := rfl
  waiting _ := rfl
  done s h := by
    rw [logStage] at h
    split at h
    case h_6 => assumption
    all_goals cases h
  raised s h := by
    rw [Sweep.logRaised] at h
    split at h
    case h_4 => cases h
    all_goals
      rename_i hphase
      exact ⟨s.cutoffs.changeLog, by rw [logStage, hphase]⟩
  step {w w' a} _ htime h := by
    cases a with
    | commit op env => exact commit_log htime h
    | begin cutoffs =>
      cases h
      rw [logLedger, logLedger]
      dsimp only
      rw [stagesOf_append rfl]
      exact .same
    | advance i => exact advance_log h

theorem tracks_tombs (u : CaseMap) (b : Id) :
    Tracks u (fun x => x.modseq) (fun x => x.createdAt) (tombsLedger b) (tombsStage b)
      Sweep.tombsRaised where
  stages _ := rfl
  waiting _ := rfl
  done s h := by
    rw [tombsStage] at h
    split at h
    case h_6 => assumption
    all_goals cases h
  raised s h := by
    have hphase : s.phase = .floorsRaised := by simpa [Sweep.tombsRaised] using h
    exact ⟨s.cutoffs.expunged, by rw [tombsStage, hphase]⟩
  step {w w' a} hdb htime h := by
    cases a with
    | commit op env => exact commit_tombs b hdb htime h
    | begin cutoffs =>
      cases h
      rw [tombsLedger, tombsLedger]
      dsimp only
      rw [stagesOf_append rfl]
      exact .same
    | advance i => exact advance_tombs b hdb h

section

variable {α : Type} {u : CaseMap} {number time : α → Nat} {ledger : World → Ledger.State α}
  {stage : Sweep → Ledger.Stage} {raised : Sweep → Bool}

variable (ht : Tracks u number time ledger stage raised)

include ht

theorem Tracks.deletes {w w' : World} {a : Action}
    (h : a.step u w = some w') (hold : (ledger w).stages i = .raised cutoff)
    (hnew : (ledger w').stages i = .done) : a.deletes w = some i := by
  rw [ht.stages] at hold hnew
  have hmoved : stagesOf stage w'.sweeps ≠ stagesOf stage w.sweeps := by
    intro heq
    rw [heq, hold] at hnew
    cases hnew
  cases a with
  | commit op env =>
    obtain ⟨plan, db', -, -, rfl⟩ := commit_spec h
    exact absurd rfl hmoved
  | begin cutoffs =>
    cases h
    exact absurd (stagesOf_append (ht.waiting cutoffs)) hmoved
  | advance j =>
    obtain ⟨s, s', db', hs, hadvance, rfl⟩ := advance_spec h
    dsimp only at hnew
    rw [stagesOf_set hs, Function.update_apply] at hnew
    split at hnew
    · rename_i hij
      subst hij
      have hdone := ht.done s' hnew
      have hphase : s.phase = .floorsRaised := by
        obtain ⟨hphases, -⟩ := Sweep.advance_cases hadvance
        rcases hphases with ⟨-, hp', -⟩ | ⟨floor, -, hp', -⟩ | ⟨-, -, hp'⟩ |
          ⟨floors, -, hp', -⟩ | ⟨hp, -, -⟩
        case inr.inr.inr.inr => exact hp
        all_goals cases hp'.symm.trans hdone
      rw [Action.deletes, hs]
      simp [hphase]
    · rw [hold] at hnew
      cases hnew

theorem Tracks.run_kept
    {w w' : World} (hdb : Sound w.db) (htime : Always u Timely actions w)
    (h : run u actions w = some w') (hkept : Ledger.Kept number time (ledger w)) :
    Sound w'.db ∧ Ledger.Kept number time (ledger w') := by
  refine htime.invariant (P := fun w => Sound w.db ∧ Ledger.Kept number time (ledger w))
    ⟨hdb, hkept⟩ ?_ h
  rintro w a w' ⟨hdb, hkept⟩ hnow hstep
  exact ⟨step_sound hdb hstep, hkept.step (ht.step hdb hnow hstep)⟩

theorem Tracks.run_held
    {w₁ w w' : World} {floor : Nat} (hdb : Sound w.db) (htime : Always u Timely actions w)
    (hraised : Always u (RaisedBefore raised w₁) actions w) (h : run u actions w = some w')
    (hheld : Ledger.Held number time floor (ledger w₁).Early (ledger w)) :
    Ledger.Held number time floor (ledger w₁).Early (ledger w') := by
  refine ((htime.and hraised).invariant (P := fun w => Sound w.db ∧
    Ledger.Held number time floor (ledger w₁).Early (ledger w)) ⟨hdb, hheld⟩ ?_ h).2
  rintro w a w' ⟨hdb, hheld⟩ ⟨hnow, hbefore⟩ hstep
  refine ⟨step_sound hdb hstep, hheld.step (ht.step hdb hnow hstep) fun i cutoff hold hnew => ?_⟩
  have hany := hbefore i (ht.deletes hstep hold hnew)
  cases hs : w₁.sweeps[i]? with
  | none =>
    rw [hs] at hany
    cases hany
  | some s =>
    rw [hs] at hany
    obtain ⟨c, hc⟩ := ht.raised s hany
    refine ⟨c, ?_⟩
    rw [ht.stages, stagesOf_of_get hs, hc]

theorem Tracks.agree {before after : List Action}
    {w₀ w₁ w₂ : World} (hdb : Sound w₀.db) (hkept : Ledger.Kept number time (ledger w₀))
    (h₁ : run u before w₀ = some w₁) (h₂ : run u after w₁ = some w₂)
    (htime₁ : Always u Timely before w₀) (htime₂ : Always u Timely after w₁)
    (hraised : Always u (RaisedBefore raised w₁) after w₁) :
    Ledger.Agree number (ledger w₁).floor (ledger w₂).rows (ledger w₂).whole := by
  obtain ⟨hdb₁, hkept₁⟩ := ht.run_kept hdb htime₁ h₁ hkept
  exact (ht.run_held hdb₁ htime₂ hraised h₂ hkept₁.held).agree

end

theorem kept_start {α : Type} {number time : α → Nat} (rows : List α) (floor : Nat) :
    Ledger.Kept number time ⟨rows, rows, floor, fun _ => .waiting⟩ := by
  refine ⟨.refl rows, fun i c n h => ?_, fun i c h => ?_⟩ <;> cases h

def World.start (db : Db) : World := ⟨db, db.changeLog, db.expunged, []⟩

theorem changesAfter_agree {floor since : Nat} (entity : Entity)
    (h : Ledger.Agree (fun r : ChangeRow => r.modseq) floor db.changeLog db'.changeLog)
    (hle : floor ≤ since) : changesAfter entity since db = changesAfter entity since db' := by
  have hrows := h.filter (p := fun r => r.entity = entity && since < r.modseq) fun r hr => by
    have hlt : r.entity = entity ∧ since < r.modseq := by simpa using hr
    omega
  rw [changesAfter, changesAfter, hrows]

theorem tombstonesSince_agree {floor since : Nat}
    (h : Ledger.Agree (fun x : Expunged => x.modseq) floor (tombsOf b db.expunged)
      (tombsOf b db'.expunged)) (hle : floor ≤ since) :
    tombstonesSince b since db = tombstonesSince b since db' := by
  have hrows := h.filter (p := fun x => since < x.modseq) fun x hx => by
    have hlt : since < x.modseq := by simpa using hx
    omega
  have hsplit : ∀ t : List Expunged, (t.filter fun x => x.mailboxId = b && since < x.modseq) =
      (tombsOf b t).filter fun x => since < x.modseq := by
    intro t
    rw [tombsOf, List.filter_filter]
    apply List.filter_congr
    intro x _
    rw [Bool.and_comm]
  rw [tombstonesSince, tombstonesSince, hsplit, hsplit, hrows]

theorem through_select_bind {α β : Type} {f : Db → α} {k : α → Reads β} {dbs : List Db} :
    through (Reads.select f >>= k) (db :: dbs) = through (k (f db)) dbs := rfl

theorem through_select_pure_bind {α β γ : Type} {f : Db → α} {g : α → β} {k : β → Reads γ}
    {dbs : List Db} :
    through ((Reads.select f >>= fun x => pure (g x)) >>= k) (db :: dbs) =
      through (k (g (f db))) dbs := rfl

theorem through_jmapChanges {db db₂ db₂' : Db} {entity : Entity} {since : Option Nat}
    {maxChanges : Nat} (h : ∀ n, since = some n → db.account.changelogFloor ≤ n →
      changesAfter entity n db₂ = changesAfter entity n db₂') :
    through (jmapChanges entity since maxChanges) [db, db₂] =
      through (jmapChanges entity since maxChanges) [db, db₂'] := by
  cases since with
  | none => rfl
  | some n =>
    rw [jmapChanges, through_select_bind, through_select_bind]
    dsimp only
    split
    · rfl
    · rename_i hcan
      split
      · rfl
      · rw [through_select_bind, through_select_bind, h n rfl (by omega)]

theorem through_syncSince {db db₂ db₂' : Db} {look : Lookup} {req : SyncRequest} {rest : List Db}
    (h : ∀ b, look.find db = some b → presentUids b.id db₂ = presentUids b.id db₂' ∧
      (b.expungedFloor ≤ req.sinceModseq →
        tombstonesSince b.id req.sinceModseq db₂ = tombstonesSince b.id req.sinceModseq db₂')) :
    through (syncSince look req) (db :: db₂ :: rest) =
      through (syncSince look req) (db :: db₂' :: rest) := by
  rw [syncSince, through_select_bind, through_select_bind]
  cases hfind : look.find db with
  | none => rfl
  | some b =>
    obtain ⟨hpresent, htombs⟩ := h b hfind
    dsimp only
    rw [vanishedSince]
    split
    · rename_i hfloor
      rw [vanishedFromTombstones, through_select_bind, through_select_bind, htombs hfloor]
    · rw [vanishedByDifference, through_select_pure_bind, through_select_pure_bind, hpresent]

/-- Readers against any number of cycles. Between what a reader reads of a floor and what it
reads after that, no cycle deletes that had not raised the floor before: then the answer is
the one it would be if retention had never deleted anything. -/
theorem retention_readers (u : CaseMap) (accountId mailboxId : Id) (now quotaBytes : Nat)
    {before after : List Action} {w₁ w₂ : World}
    (h₁ : run u before (World.start (newAccount accountId mailboxId now quotaBytes)) = some w₁)
    (h₂ : run u after w₁ = some w₂)
    (htime₁ : Always u Timely before (World.start (newAccount accountId mailboxId now quotaBytes)))
    (htime₂ : Always u Timely after w₁) :
    (Always u (RaisedBefore Sweep.logRaised w₁) after w₁ → ∀ entity since maxChanges,
      through (jmapChanges entity since maxChanges) [w₁.db, w₂.db] =
        through (jmapChanges entity since maxChanges) [w₁.db, w₂.whole]) ∧
    (Always u (RaisedBefore Sweep.tombsRaised w₁) after w₁ → ∀ look req rest,
      through (syncSince look req) (w₁.db :: w₂.db :: rest) =
        through (syncSince look req) (w₁.db :: w₂.whole :: rest)) := by
  have hdb := sound_newAccount accountId mailboxId now quotaBytes
  have hdb₁ : Sound w₁.db :=
    ((tracks_log u).run_kept hdb htime₁ h₁ (kept_start _ _)).1
  constructor
  · intro hraised entity since maxChanges
    have hagree := (tracks_log u).agree hdb (kept_start _ _) h₁ h₂ htime₁ htime₂ hraised
    apply through_jmapChanges
    intro n _ hle
    have hrows : changesAfter entity n w₂.db = changesAfter entity n w₂.whole :=
      changesAfter_agree entity hagree hle
    exact hrows
  · intro hraised look req rest
    refine through_syncSince fun b hb => ⟨rfl, fun hle => ?_⟩
    have hagree := (tracks_tombs u b.id).agree hdb (kept_start _ _) h₁ h₂ htime₁ htime₂ hraised
    have hfloor : floorOf b.id w₁.db ≤ req.sinceModseq := by
      rw [floorOf_eq hdb₁.keyed (look.mem hb)]
      exact hle
    have htombs : tombstonesSince b.id req.sinceModseq w₂.db =
        tombstonesSince b.id req.sinceModseq w₂.whole := tombstonesSince_agree hagree hfloor
    exact htombs

def testMade : Action := .commit (.createMailbox [] ['b'] none) ⟨0, fun j => [Char.ofNat (97 + j)]⟩

def testCycle : List Action :=
  [.begin ⟨1, 1, 1⟩, .advance 0, .advance 0, .advance 0, .advance 0]

theorem timely_testCycle : ∀ a ∈ testCycle ++ [Action.advance 0], ∀ w, Timely w a := by
  intro a ha w
  simp only [testCycle, List.cons_append, List.nil_append, List.mem_cons, List.not_mem_nil,
    or_false] at ha
  rcases ha with rfl | rfl | rfl | rfl | rfl | rfl <;> trivial

theorem timely_testMade (u : CaseMap) (h : ∀ a ∈ actions, ∀ w, Timely w a) :
    Always u Timely (testMade :: actions) (World.start (newAccount ['a'] ['i'] 0 0)) := by
  refine ⟨fun s hs => ?_, fun w _ => Schedule.always_of_all h w⟩
  cases hs

theorem retention_readers_raised :
    ∃ w₁ w₂, run ⟨id, id⟩ (testMade :: testCycle) (World.start (newAccount ['a'] ['i'] 0 0)) = some w₁ ∧
      run ⟨id, id⟩ [.advance 0] w₁ = some w₂ ∧ w₂.db.changeLog = [] ∧ w₂.whole.changeLog ≠ [] ∧
      (∀ since, through (jmapChanges .mailbox since 10) [w₁.db, w₂.db] =
        through (jmapChanges .mailbox since 10) [w₁.db, w₂.whole]) ∧
      ∀ look req, through (syncSince look req) [w₁.db, w₂.db] =
        through (syncSince look req) [w₁.db, w₂.whole] := by
  have hrun : ((run ⟨id, id⟩ (testMade :: testCycle)
      (World.start (newAccount ['a'] ['i'] 0 0))).bind fun w₁ =>
        (run ⟨id, id⟩ [.advance 0] w₁).map fun w₂ =>
          (w₁.sweeps, w₂.db.changeLog.length, w₂.whole.changeLog.length)) =
      some ([⟨⟨1, 1, 1⟩, .floorsRaised⟩], 0, 1) := by
    decide +kernel
  obtain ⟨w₁, h₁, hrun⟩ := Option.bind_eq_some_iff.mp hrun
  obtain ⟨w₂, h₂, hrun⟩ := Option.map_eq_some_iff.mp hrun
  obtain ⟨hsweeps, hlens⟩ := Prod.mk.inj hrun
  obtain ⟨hlen, hwhole⟩ := Prod.mk.inj hlens
  have hraised : ∀ raised : Sweep → Bool, raised ⟨⟨1, 1, 1⟩, .floorsRaised⟩ = true →
      Always ⟨id, id⟩ (RaisedBefore raised w₁) [.advance 0] w₁ := by
    intro raised htrue
    refine ⟨fun i hi => ?_, fun _ _ => trivial⟩
    rw [Action.deletes, hsweeps] at hi
    cases hi
    rw [hsweeps]
    exact htrue
  have htime := fun a ha => timely_testCycle a (List.mem_append_left _ ha)
  obtain ⟨hlog, htombs⟩ := retention_readers ⟨id, id⟩ ['a'] ['i'] 0 0 h₁ h₂
    (timely_testMade _ htime) (Schedule.always_of_all (by simp [Timely]) w₁)
  refine ⟨w₁, w₂, h₁, h₂, List.length_eq_zero_iff.mp hlen, fun hnil => ?_,
    fun since => hlog (hraised _ rfl) _ since 10, fun look req => htombs (hraised _ rfl) look req []⟩
  rw [hnil] at hwhole
  cases hwhole

theorem retention_readers_fails :
    ¬ ∀ (u : CaseMap) (accountId mailboxId : Id) (now quotaBytes : Nat) (before after : List Action)
      (w₁ w₂ : World),
      run u before (World.start (newAccount accountId mailboxId now quotaBytes)) = some w₁ →
      run u after w₁ = some w₂ →
      Always u Timely before (World.start (newAccount accountId mailboxId now quotaBytes)) →
      Always u Timely after w₁ → ∀ entity since maxChanges,
        through (jmapChanges entity since maxChanges) [w₁.db, w₂.db] =
          through (jmapChanges entity since maxChanges) [w₁.db, w₂.whole] := by
  intro h
  -- The whole cycle runs between the reader's two reads.
  have hrun : ((run ⟨id, id⟩ [testMade] (World.start (newAccount ['a'] ['i'] 0 0))).bind fun w₁ =>
      (run ⟨id, id⟩ (testCycle ++ [Action.advance 0]) w₁).map fun w₂ =>
        ((through (jmapChanges .mailbox (some 0) 10) [w₁.db, w₂.db]).bind (·.toOption),
          (through (jmapChanges .mailbox (some 0) 10) [w₁.db, w₂.whole]).bind (·.toOption))) =
      some (some (.delta ⟨0, 1, false, [], [], []⟩), some (.delta ⟨0, 1, false, [['a']], [], []⟩)) := by
    decide +kernel
  obtain ⟨w₁, h₁, hrun⟩ := Option.bind_eq_some_iff.mp hrun
  obtain ⟨w₂, h₂, hrun⟩ := Option.map_eq_some_iff.mp hrun
  have heq := h ⟨id, id⟩ ['a'] ['i'] 0 0 [testMade] (testCycle ++ [Action.advance 0]) w₁ w₂ h₁ h₂
    (timely_testMade _ (by simp)) (Schedule.always_of_all timely_testCycle w₁) .mailbox (some 0) 10
  rw [heq] at hrun
  obtain ⟨hempty, hfull⟩ := Prod.mk.inj hrun
  cases hempty.symm.trans hfull

end Ionosphere.Server
