import Ionosphere.Mta.Ownership

/-! A row that was delivered or bounced stays so, as long as every worker that has it is in its
lease: the statements that record an outcome ask for nothing but the id of the row. -/
namespace Ionosphere.Mta

open Ionosphere.Js Ionosphere.Lib

variable {r : QueueRow} {g : List QueueRow}

def Move.starts (w : World) : Move → List QueueRow
  | .send j i cap => (((w.workers[j]?).bind fun x => x.groups[i]?).getD []).take cap
  | _ => []

/-- A move of a worker leaves the status of rows in a terminal state, and no session starts with
such a row. -/
def Absorbing (u : CaseMap) (opts : WorkerOptions) (w : World) (m : Move) : Prop :=
  (∀ w', m.ofWorker = true → step u opts m w = some w' → ∀ r ∈ w.db.queue,
    r.status.terminal = true → ∃ r' ∈ w'.db.queue, r'.id = r.id ∧ r'.status = r.status) ∧
  ∀ r ∈ m.starts w, ∀ r' ∈ w.db.queue, r'.id = r.id → r'.status.terminal = false

section

variable {u : CaseMap} {opts : WorkerOptions} {w w' : World} {j i : Nat} {x : Worker}

theorem Owned.inFlight (h : Owned w) (hx : x ∈ w.workers) (htime : w.time ≤ x.now + LEASE_MS)
    {r r' : QueueRow} (hr : r ∈ x.rows) (hr' : r' ∈ w.db.queue) (hid : r'.id = r.id) :
    r'.status = .inFlight := by
  have hclaim : (x.now + LEASE_MS, r.id) ∈ w.claims :=
    List.mem_flatMap.mpr ⟨x, hx, List.mem_map_of_mem (f := fun r => (x.now + LEASE_MS, r.id)) hr⟩
  obtain ⟨r'', hrow, hstatus, -⟩ := held_eq_some.mp (h.leased.backed _ hclaim htime)
  have hrow' := Statements.row_of_mem h.keyed hr'
  rw [hid, hrow] at hrow'
  cases hrow'
  exact hstatus

theorem mem_leaseBatch {now : Nat} (hdue : due now r = false)
    (rows queue : List QueueRow) (hr : r ∈ queue) : r ∈ (leaseBatch now rows queue).1 := by
  induction rows generalizing queue with
  | nil => exact hr
  | cons row rows ih =>
    rw [leaseBatch_cons]
    refine ih _ (List.mem_map.mpr ⟨r, hr, ?_⟩)
    rw [leasable, hdue, Bool.and_false]
    rfl

theorem due_terminal {now : Nat} (h : r.status.terminal = true) :
    due now r = false := by
  rw [due]
  cases hstatus : r.status <;> simp_all [QueueStatus.terminal]

theorem absorbing_settle (opts : WorkerOptions) {effects : QueueRow → Effects}
    (habout : About effects) (h : Owned w) (hx : w.workers[j]? = some x)
    (hg : ∀ r ∈ g, r ∈ x.rows) (htime : w.time ≤ x.now + LEASE_MS)
    (hr : r ∈ w.db.queue) (hterm : r.status.terminal = true) :
    r ∈ (batch (settle opts effects g).1 w.db).queue := by
  have hrow : (batch (settle opts effects g).1 w.db).row r.id = w.db.row r.id := by
    apply row_batch
    refine settle_targets habout fun r' hr' heq => ?_
    rw [h.inFlight (List.mem_of_getElem? hx) htime (hg r' hr') hr heq.symm] at hterm
    cases hterm
  rw [Db.row, Db.row, Statements.row_of_mem h.keyed hr] at hrow
  exact (Statements.row_mem hrow).1

theorem absorbing_of_same (hdb : w'.db = w.db) (hr : r ∈ w.db.queue) :
    ∃ r' ∈ w'.db.queue, r'.id = r.id ∧ r'.status = r.status :=
  ⟨r, hdb ▸ hr, rfl, rfl⟩

theorem mem_rows_sending (hg : x.sending[i]? = some g) :
    ∀ r ∈ g, r ∈ x.rows := fun _ hr =>
  List.mem_append_right _ (List.mem_flatten_of_mem (List.mem_of_getElem? hg) hr)

theorem mem_rows_groups (hg : x.groups[i]? = some g) :
    ∀ r ∈ g, r ∈ x.rows := fun _ hr =>
  List.mem_append_left _ (List.mem_flatten_of_mem (List.mem_of_getElem? hg) hr)

theorem absorbing_step {m : Move} (h : Owned w) (hm : Held w m) (hworker : m.ofWorker = true)
    (hw : step u opts m w = some w') (hr : r ∈ w.db.queue)
    (hterm : r.status.terminal = true) :
    ∃ r' ∈ w'.db.queue, r'.id = r.id ∧ r'.status = r.status := by
  cases m with
  | runTick picked =>
    cases hw
    exact absorbing_of_same rfl hr
  | lease j =>
    obtain ⟨x, -, rfl⟩ := Option.map_eq_some_iff.mp hw
    exact ⟨r, mem_leaseBatch (due_terminal hterm) _ _ hr, rfl, rfl⟩
  | send j i cap =>
    obtain ⟨x, g, -, -, rfl⟩ := group_of_workerStep hw
    exact absorbing_of_same rfl hr
  | outcome j i result viaSmarthost delay =>
    obtain ⟨x, g, hx, hg, rfl⟩ := group_of_workerStep hw
    exact ⟨r, absorbing_settle opts (outcomeOf_about result viaSmarthost w.time delay) h hx
      (mem_rows_sending hg) (hm x hx) hr hterm, rfl, rfl⟩
  | noAnswer j i delay =>
    obtain ⟨x, g, hx, hg, rfl⟩ := group_of_workerStep hw
    exact ⟨r, absorbing_settle opts (deferAllOf_about w.time delay) h hx (mem_rows_sending hg)
      (hm x hx) hr hterm, rfl, rfl⟩
  | deferGroup j i delay =>
    obtain ⟨x, g, hx, hg, rfl⟩ := group_of_workerStep hw
    exact ⟨r, absorbing_settle opts (deferAllOf_about w.time delay) h hx (mem_rows_groups hg)
      (hm x hx) hr hterm, rfl, rfl⟩
  | skipGroup j i =>
    obtain ⟨x, -, hw⟩ := Option.bind_eq_some_iff.mp hw
    obtain ⟨out, hout, rfl⟩ := Option.map_eq_some_iff.mp hw
    cases hout
    exact absorbing_of_same rfl hr
  | sendDsn j =>
    obtain ⟨x, -, hw⟩ := Option.bind_eq_some_iff.mp hw
    obtain ⟨dsn, -, rfl⟩ := Option.map_eq_some_iff.mp hw
    exact absorbing_of_same rfl hr
  | crash j =>
    cases hw
    exact absorbing_of_same rfl hr
  | _ => cases hworker

theorem starts_inFlight {m : Move} (h : Owned w) (hm : Held w m) {r r' : QueueRow}
    (hr : r ∈ m.starts w) (hr' : r' ∈ w.db.queue) (hid : r'.id = r.id) :
    r'.status = .inFlight := by
  cases m with
  | send j i cap =>
    rw [Move.starts] at hr
    cases hx : w.workers[j]? with
    | none => simp [hx] at hr
    | some x =>
      cases hg : x.groups[i]? with
      | none => simp [hx, hg] at hr
      | some g =>
        rw [hx, Option.bind_some, hg, Option.getD_some] at hr
        exact h.inFlight (List.mem_of_getElem? hx) (hm x hx)
          (mem_rows_groups hg r (List.mem_of_mem_take hr)) hr' hid
  | _ => cases hr

/-- However workers and everything else that touches the queue take turns: if sessions start and
outcomes are written while the leases run, no move of a worker changes the status of a row that
is done or bounced, and no session starts with such a row. -/
theorem terminal_absorbing {ms : List Move} (h : Schedule.Always (step u opts) Held ms {}) :
    Schedule.Always (step u opts) (Absorbing u opts) ms {} := by
  refine h.imp owned_start (fun _ _ _ => step_owned) fun w m howned hm => ⟨?_, ?_⟩
  · intro w' hworker hw r hr hterm
    exact absorbing_step howned hm hworker hw hr hterm
  · intro r hr r' hr' hid
    rw [starts_inFlight howned hm hr hr' hid]
    rfl

end

instance {w : World} {m : Move} : Decidable (Held w m) := by
  induction m using Move.casesOn <;> unfold Held <;> infer_instance

def testInput : EnqueueInput :=
  { tenantId := ['t'], blobId := ['m'], envFrom := ['s', '@', 'a'], rcpts := [['r', '@', 'b']] }

def testResult : SmtpClientResult := ⟨true, 250, false, [(['r', '@', 'b'], ⟨250, false⟩)]⟩

/-- Two workers read a row, one delivers it, and the other comes to it then. A third looks at
the table for another mail. -/
def delivery : List Move :=
  [.enqueueMessage testInput [['q']], .runTick [['q']], .runTick [['q']], .lease 0, .send 0 0 1,
    .tick 1000, .outcome 0 0 testResult false fun _ => 0, .lease 1,
    .enqueueMessage testInput [['z']], .runTick [['q'], ['z']], .lease 2, .send 2 0 1, .tick 1000,
    .noAnswer 2 0 fun _ => 60000]

theorem terminal_absorbing_delivery :
    ∃ w, Schedule.run (step ⟨id, id⟩ ⟨true, 8⟩) delivery {} = some w ∧
      w.db.queue.map QueueRow.status = [.done, .deferred] ∧
      Schedule.Always (step ⟨id, id⟩ ⟨true, 8⟩) (Absorbing ⟨id, id⟩ ⟨true, 8⟩) delivery {} := by
  have hrun : (Schedule.run (step ⟨id, id⟩ ⟨true, 8⟩) delivery {}).map
      (fun w => w.db.queue.map QueueRow.status) = some [.done, .deferred] := by
    decide +kernel
  obtain ⟨w, hw, hstatus⟩ := Option.map_eq_some_iff.mp hrun
  exact ⟨w, hw, hstatus, terminal_absorbing (by decide +kernel)⟩

/-- The session of one worker takes longer than its lease; another delivers, and then the first
fails. -/
def overtaken : List Move :=
  [.enqueueMessage testInput [['q']], .runTick [['q']], .lease 0, .send 0 0 1,
    .tick (LEASE_MS + 1), .runTick [['q']], .lease 1, .send 1 0 1,
    .outcome 1 0 testResult false fun _ => 0]

theorem terminal_absorbing_fails :
    ¬ ∀ (u : CaseMap) (opts : WorkerOptions) (ms : List Move),
      Schedule.Always (step u opts) (Absorbing u opts) ms {} := by
  intro h
  have hrun : (Schedule.run (step ⟨id, id⟩ ⟨true, 8⟩) overtaken {}).bind (fun w =>
      (step ⟨id, id⟩ ⟨true, 8⟩ (.noAnswer 0 0 fun _ => 60000) w).map fun w' =>
        (w.db.queue.map fun r => (r.id, r.status), w'.db.queue.map fun r => (r.id, r.status))) =
      some ([(['q'], .done)], [(['q'], .deferred)]) := by
    decide +kernel
  obtain ⟨w, hw, hrun⟩ := Option.bind_eq_some_iff.mp hrun
  obtain ⟨w', hw', hrun⟩ := Option.map_eq_some_iff.mp hrun
  obtain ⟨hdone, hdeferred⟩ := Prod.mk.inj hrun
  have hall := h ⟨id, id⟩ ⟨true, 8⟩ (overtaken ++ [Move.noAnswer 0 0 fun _ => 60000])
  have habsorb := (hall.drop hw).1.1 w' rfl hw'
  -- The row that was done is deferred.
  obtain ⟨r, hr, hrow⟩ := List.mem_map.mp (hdone ▸ List.mem_singleton_self _)
  obtain ⟨hid, hstatus⟩ := Prod.mk.inj hrow
  obtain ⟨r', hr', -, hstatus'⟩ := habsorb r hr (by rw [hstatus]; rfl)
  have hmem : (r'.id, r'.status) ∈ [((['q'] : Id), QueueStatus.deferred)] :=
    hdeferred ▸ List.mem_map_of_mem (f := fun r : QueueRow => (r.id, r.status)) hr'
  obtain ⟨-, hlast⟩ := Prod.mk.inj (List.mem_singleton.mp hmem)
  rw [hstatus', hstatus] at hlast
  cases hlast

end Ionosphere.Mta
