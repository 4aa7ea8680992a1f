import Ionosphere.Lib.Slots
import Ionosphere.Mta.Worker

/-! What a worker may rely on while its lease runs: the rows it holds are in flight under its
own lease, and nobody else holds them. -/
namespace Ionosphere.Mta

open Ionosphere.Js Ionosphere.Lib

variable {id : Id} {r : QueueRow} {g : List QueueRow}

section

variable {db : Db} {stmts : List Stmt}

theorem row_exec {s : Stmt} (h : s.target ≠ some id) : (s.exec db).row id = db.row id := by
  have hid : ∀ id', some id' ≠ some id → (Statements.row QueueRow.id id
      (Statements.update (byId id') s.change db.queue)) = db.row id := by
    intro id' hne
    have hkey : ∀ r, (s.change r).id = r.id := by
      intro r
      cases s <;> rfl
    rw [Statements.row_update hkey, ← Db.row]
    cases hrow : db.row id with
    | none => rfl
    | some r =>
      have hr : r.id = id := (Statements.row_mem hrow).2
      have hby : byId id' r = false := decide_eq_false fun heq => hne (by rw [← heq, hr])
      rw [Option.map_some, hby]
      rfl
  cases s with
  | suppress row => rfl
  | done id' => exact hid id' h
  | bounced id' attempts => exact hid id' h
  | deferred id' attempts nextAttempt => exact hid id' h
  | delayNotified id' now => exact hid id' h

theorem row_batch (h : ∀ s ∈ stmts, s.target ≠ some id) : (batch stmts db).row id = db.row id := by
  induction stmts generalizing db with
  | nil => rfl
  | cons s stmts ih =>
    rw [List.forall_mem_cons] at h
    exact (ih h.2).trans (row_exec h.1)

theorem exec_ids (s : Stmt) : (s.exec db).queue.map QueueRow.id = db.queue.map QueueRow.id := by
  have hids : ∀ id', (Statements.update (byId id') s.change db.queue).map QueueRow.id =
      db.queue.map QueueRow.id := by
    intro id'
    rw [Statements.update, List.map_map]
    apply List.map_congr_left
    intro r _
    rw [Function.comp_apply]
    split
    · cases s <;> rfl
    · rfl
  cases s with
  | suppress row => rfl
  | done id' => exact hids id'
  | bounced id' attempts => exact hids id'
  | deferred id' attempts nextAttempt => exact hids id'
  | delayNotified id' now => exact hids id'

theorem batch_ids (stmts : List Stmt) :
    (batch stmts db).queue.map QueueRow.id = db.queue.map QueueRow.id := by
  induction stmts generalizing db with
  | nil => rfl
  | cons s stmts ih => exact ih.trans (exec_ids s)

end

def About (effects : QueueRow → Effects) : Prop :=
  ∀ r, ∀ s ∈ (effects r).stmts, s.target = some r.id

section

variable {u : CaseMap} {opts : WorkerOptions}

theorem deferRow_about {now delay : Nat} :
    ∀ s ∈ (deferRow u opts r now delay).stmts, s.target = some r.id := by
  rw [deferRow]
  intro s hs
  obtain rfl | hs := List.mem_cons.mp hs
  · rfl
  · obtain ⟨-, -, rfl⟩ := List.mem_map.mp hs
    rfl

theorem outcomeOf_about (result : SmtpClientResult) (viaSmarthost : Bool) (now : Nat)
    (delay : Id → Nat) : About (outcomeOf u opts result viaSmarthost now delay) := by
  intro r s hs
  rw [outcomeOf] at hs
  split at hs
  · cases List.mem_singleton.mp hs
    rfl
  · split at hs
    · cases List.mem_singleton.mp hs
      rfl
    · split at hs
      · cases List.mem_singleton.mp hs
        rfl
      · exact deferRow_about s hs

theorem deferAllOf_about (now : Nat) (delay : Id → Nat) :
    About (deferAllOf u opts now delay) := by
  intro r s hs
  rw [deferAllOf] at hs
  split at hs
  · cases List.mem_singleton.mp hs
    rfl
  · exact deferRow_about s hs

theorem settle_targets {effects : QueueRow → Effects} (habout : About effects)
    {rows : List QueueRow} (hid : ∀ r ∈ rows, r.id ≠ id) :
    ∀ s ∈ (settle opts effects rows).1, s.target ≠ some id := by
  intro s hs
  obtain hs | hs := List.mem_append.mp hs
  · obtain ⟨r, hr, hs⟩ := List.mem_flatMap.mp hs
    rw [habout r s hs]
    exact fun heq => hid r hr (Option.some.inj heq)
  · obtain ⟨r, hr, hs⟩ := List.mem_flatMap.mp hs
    obtain ⟨row, -, rfl⟩ := List.mem_map.mp hs
    nofun

end

def held (queue : List QueueRow) (id : Id) : Option Nat :=
  (Statements.row QueueRow.id id queue).bind fun r =>
    if r.status = .inFlight then r.leaseUntil else none

def Worker.rows (x : Worker) : List QueueRow := x.groups.flatten ++ x.sending.flatten

def Worker.claims (x : Worker) : List (Nat × Id) :=
  x.rows.map fun r => (x.now + LEASE_MS, r.id)

def World.claims (w : World) : List (Nat × Id) := w.workers.flatMap Worker.claims

structure Owned (w : World) : Prop where
  keyed : (w.db.queue.map QueueRow.id).Nodup
  known : ∀ r ∈ w.db.queue, r.id ∈ w.entered.map QueueRow.id
  now : ∀ x ∈ w.workers, x.now ≤ w.time
  leased : Leased w.time (held w.db.queue) w.claims

def Held (w : World) : Move → Prop
  | .send j _ _ | .outcome j _ _ _ _ | .noAnswer j _ _ | .deferGroup j _ _ =>
    ∀ x ∈ w.workers[j]?, w.time ≤ x.now + LEASE_MS
  | _ => True

section

theorem addToGroup_perm (row : QueueRow) (gs : List (List QueueRow)) :
    (addToGroup row gs).flatten.Perm (row :: gs.flatten) := by
  induction gs with
  | nil => exact .refl _
  | cons g gs ih =>
    rw [addToGroup]
    split
    · rw [List.flatten_cons, List.flatten_cons, List.append_assoc]
      exact List.perm_middle
    · rw [List.flatten_cons, List.flatten_cons]
      exact (ih.append_left g).trans List.perm_middle

theorem grouped_perm (rows : List QueueRow) : (grouped rows).flatten.Perm rows := by
  have hfold : ∀ gs : List (List QueueRow),
      (rows.foldl (fun groups row => addToGroup row groups) gs).flatten.Perm (rows ++ gs.flatten) := by
    induction rows with
    | nil => exact fun gs => .refl _
    | cons row rows ih =>
      intro gs
      exact (ih _).trans (((addToGroup_perm row gs).append_left rows).trans List.perm_middle)
  simpa [grouped] using hfold []

end

section

variable {time now : Nat} {queue : List QueueRow} {claims : List (Nat × Id)}

theorem held_eq_some {e : Nat} :
    held queue id = some e ↔ ∃ r, Statements.row QueueRow.id id queue = some r ∧
      r.status = .inFlight ∧ r.leaseUntil = some e := by
  simp only [held, Option.bind_eq_some_iff, Option.ite_none_right_eq_some]

def leasable (now : Nat) (id : Id) (r : QueueRow) : Bool := byId id r && due now r

def leaseRow (now : Nat) (r : QueueRow) : QueueRow :=
  { r with status := .inFlight, leaseUntil := some (now + LEASE_MS) }

theorem leaseBatch_cons (row : QueueRow) (rows : List QueueRow) :
    leaseBatch now (row :: rows) queue =
      ((leaseBatch now rows (Statements.update (leasable now row.id) (leaseRow now) queue)).1,
        if queue.countP (leasable now row.id) = 1 then
          row :: (leaseBatch now rows
            (Statements.update (leasable now row.id) (leaseRow now) queue)).2
        else (leaseBatch now rows
          (Statements.update (leasable now row.id) (leaseRow now) queue)).2) := rfl

theorem leasable_id (h : leasable now id r = true) : r.id = id :=
  of_decide_eq_true (Bool.and_eq_true _ _ |>.mp h).1

theorem due_free {e : Nat} (hdue : due now r = true) (hstatus : r.status = .inFlight)
    (he : r.leaseUntil = some e) : e < now := by
  simpa [due, hstatus, he] using hdue

theorem row_lease (id k : Id) :
    Statements.row QueueRow.id k (Statements.update (leasable now id) (leaseRow now) queue) =
      (Statements.row QueueRow.id k queue).map fun r =>
        if leasable now id r then leaseRow now r else r :=
  Statements.row_update fun _ => rfl

theorem held_lease_other {id k : Id} (hne : k ≠ id) :
    held (Statements.update (leasable now id) (leaseRow now) queue) k = held queue k := by
  rw [held, row_lease, held]
  cases hrow : Statements.row QueueRow.id k queue with
  | none => rfl
  | some r =>
    rw [Option.map_some, if_neg]
    intro hlease
    exact hne ((Statements.row_mem hrow).2.symm.trans (leasable_id hlease))

theorem leased_batch (hnow : now ≤ time) (rows : List QueueRow)
    (hkeyed : (queue.map QueueRow.id).Nodup) (h : Leased time (held queue) claims) :
    Leased time (held (leaseBatch now rows queue).1)
      (claims ++ (leaseBatch now rows queue).2.map fun r => (now + LEASE_MS, r.id)) := by
  induction rows generalizing queue claims with
  | nil => simpa [leaseBatch] using h
  | cons row rows ih =>
    rw [leaseBatch_cons]
    have hkeyed' := Statements.nodup_update (p := leasable now row.id) (f := leaseRow now)
      (fun _ => rfl) hkeyed
    have hle := Statements.changes_le_one hkeyed (p := leasable now row.id) fun r => leasable_id
    have hpos := Statements.changes_pos hkeyed (p := leasable now row.id) fun r => leasable_id
    dsimp only
    split
    · rename_i hone
      obtain ⟨r, hr, hlease⟩ := hpos.mp (by omega)
      have hnew : Leased time
          (held (Statements.update (leasable now row.id) (leaseRow now) queue))
          (claims ++ [(now + LEASE_MS, row.id)]) := by
        refine h.take ?_ ?_ fun k hne => held_lease_other hne
        · intro e he
          obtain ⟨r', hr', hstatus, hlast⟩ := held_eq_some.mp he
          rw [hr] at hr'
          cases hr'
          exact (due_free (Bool.and_eq_true _ _ |>.mp hlease).2 hstatus hlast).trans_le hnow
        · rw [held, row_lease, hr, Option.map_some, if_pos hlease]
          rfl
      have hrest := ih hkeyed' hnew
      rwa [List.append_assoc, List.singleton_append] at hrest
    · rename_i hnone
      -- No row was changed.
      have hsame : held (Statements.update (leasable now row.id) (leaseRow now) queue) =
          held queue := by
        funext k
        by_cases hk : k = row.id
        · subst hk
          rw [held, row_lease, held]
          cases hrow : Statements.row QueueRow.id row.id queue with
          | none => rfl
          | some r =>
            rw [Option.map_some, if_neg]
            intro hlease
            have := hpos.mpr ⟨r, hrow, hlease⟩
            omega
        · exact held_lease_other hk
      exact ih hkeyed' (hsame ▸ h)

theorem leaseBatch_ids (rows : List QueueRow) :
    (leaseBatch now rows queue).1.map QueueRow.id = queue.map QueueRow.id := by
  induction rows generalizing queue with
  | nil => rfl
  | cons row rows ih =>
    rw [leaseBatch_cons, ih, Statements.update, List.map_map]
    apply List.map_congr_left
    intro r _
    rw [Function.comp_apply]
    split <;> rfl

end

section

variable {u : CaseMap} {opts : WorkerOptions} {w w' : World} {j i : Nat} {x y : Worker}

theorem held_batch {stmts : List Stmt} (h : ∀ s ∈ stmts, s.target ≠ some id) :
    held (batch stmts w.db).queue id = held w.db.queue id := by
  have hrow : Statements.row QueueRow.id id (batch stmts w.db).queue =
      Statements.row QueueRow.id id w.db.queue := row_batch h
  rw [held, hrow, held]

theorem owned_set {db' : Db} (h : Owned w) (hnow : y.now ≤ w.time)
    (hids : db'.queue.map QueueRow.id = w.db.queue.map QueueRow.id)
    (hleased : Leased w.time (held db'.queue) ((w.workers.set j y).flatMap Worker.claims)) :
    Owned { w with db := db', workers := w.workers.set j y } := by
  refine ⟨hids ▸ h.keyed, fun r hr => ?_, fun x' hx' => ?_, hleased⟩
  · have hmem : r.id ∈ w.db.queue.map QueueRow.id := hids ▸ List.mem_map_of_mem hr
    obtain ⟨r', hr', heq⟩ := List.mem_map.mp hmem
    exact heq ▸ h.known r' hr'
  · obtain hx' | rfl := List.mem_or_eq_of_mem_set hx'
    · exact h.now x' hx'
    · exact hnow

theorem owned_worker (gone : List QueueRow) {stmts : List Stmt} (h : Owned w)
    (hx : w.workers[j]? = some x) (hnow : y.now = x.now) (hrows : x.rows.Perm (gone ++ y.rows))
    (htargets : ∀ id, (∀ r ∈ gone, r.id ≠ id) → ∀ s ∈ stmts, s.target ≠ some id)
    (hheld : stmts = [] ∨ w.time ≤ x.now + LEASE_MS) :
    Owned { w with db := batch stmts w.db, workers := w.workers.set j y } := by
  have hclaims : x.claims.Perm ((gone.map fun r => (x.now + LEASE_MS, r.id)) ++ y.claims) := by
    rw [Worker.claims, Worker.claims, hnow, ← List.map_append]
    exact hrows.map _
  have hall : Leased w.time (held w.db.queue) ((gone.map fun r => (x.now + LEASE_MS, r.id)) ++
      (y.claims ++ (w.workers.eraseIdx j).flatMap Worker.claims)) := by
    refine h.leased.perm ((Slots.flatMap_perm hx Worker.claims).trans ?_)
    rw [← List.append_assoc]
    exact hclaims.append_right _
  refine owned_set h (hnow ▸ h.now x (List.mem_of_getElem? hx)) (batch_ids stmts) ?_
  refine Leased.perm ?_ (Slots.flatMap_set_perm hx Worker.claims).symm
  refine (hall.sublist (List.sublist_append_right _ _)).change fun c hc htime => ?_
  apply held_batch
  obtain rfl | hheld := hheld
  · nofun
  · refine htargets c.2 fun r hr => ?_
    exact hall.apart (List.mem_map_of_mem (f := fun r => (x.now + LEASE_MS, r.id)) hr) hc hheld htime

theorem owned_others {db' : Db} {entered : List QueueRow} (h : Owned w)
    (hkeyed : (db'.queue.map QueueRow.id).Nodup)
    (hknown : ∀ r ∈ db'.queue, r.id ∈ entered.map QueueRow.id)
    (hsame : ∀ id r e, w.db.row id = some r → r.status = .inFlight → r.leaseUntil = some e →
      w.time ≤ e → db'.row id = some r) :
    Owned { w with db := db', entered } := by
  refine ⟨hkeyed, hknown, h.now, h.leased.change fun c hc htime => ?_⟩
  obtain ⟨r, hr, hstatus, he⟩ := held_eq_some.mp (h.leased.backed c hc htime)
  have hrow : Statements.row QueueRow.id c.2 db'.queue = some r := hsame c.2 r c.1 hr hstatus he htime
  dsimp only
  rw [held, hrow, held, hr]

theorem owned_update {p : QueueRow → Bool} {f : QueueRow → QueueRow} (h : Owned w)
    (hf : ∀ r, (f r).id = r.id) (hp : ∀ r, r.status = .inFlight → p r = false) :
    Owned { w with db := { w.db with queue := Statements.update p f w.db.queue } } := by
  refine owned_others h (Statements.nodup_update hf h.keyed) ?_ ?_
  · intro r hr
    obtain ⟨r', hr', rfl⟩ := List.mem_map.mp hr
    split
    · exact hf r' ▸ h.known r' hr'
    · exact h.known r' hr'
  · intro id r e hr hstatus _ _
    have hrow := Statements.row_update (p := p) (t := w.db.queue) (k := id) hf
    rw [Db.row] at hr ⊢
    rw [hrow, hr, Option.map_some, hp r hstatus]
    rfl

theorem rows_ids_sublist {input : EnqueueInput} {now : Nat} {ids : List Id} {db : Db} :
    ((input.rows u now ids db).map QueueRow.id).Sublist ids := by
  rw [EnqueueInput.rows]
  generalize input.rcpts.filter _ = accepted
  induction accepted generalizing ids with
  | nil => simp
  | cons rcpt accepted ih =>
    cases ids with
    | nil => simp
    | cons id ids =>
      rw [List.zipWith_cons_cons, List.map_cons]
      exact ih.cons_cons id

theorem owned_enqueue {input : EnqueueInput} {ids : List Id} (h : Owned w)
    (hnodup : ids.Nodup) (hnew : ∀ id ∈ ids, id ∉ w.entered.map QueueRow.id) :
    Owned { w with
      db := (enqueueMessage u input w.time ids w.db).1
      entered := w.entered ++ input.rows u w.time ids w.db } := by
  have hsub : ((input.rows u w.time ids w.db).map QueueRow.id).Sublist ids := rows_ids_sublist
  refine owned_others h ?_ ?_ ?_
  · change ((w.db.queue ++ _).map QueueRow.id).Nodup
    rw [List.map_append, List.nodup_append]
    refine ⟨h.keyed, hnodup.sublist hsub, ?_⟩
    intro id hid id' hid' heq
    obtain ⟨r, hr, rfl⟩ := List.mem_map.mp hid
    exact hnew id' (hsub.subset hid') (heq ▸ h.known r hr)
  · intro r hr
    rw [List.map_append]
    obtain hr | hr := List.mem_append.mp hr
    · exact List.mem_append_left _ (h.known r hr)
    · exact List.mem_append_right _ (List.mem_map_of_mem hr)
  · intro id r e hr _ _ _
    change Statements.row QueueRow.id id (w.db.queue ++ _) = some r
    rw [Db.row] at hr
    rw [Statements.row_append, hr]
    rfl

theorem owned_lease (h : Owned w) (hw : step u opts (.lease j) w = some w') : Owned w' := by
  obtain ⟨x, hx, rfl⟩ := Option.map_eq_some_iff.mp hw
  have hnow := h.now x (List.mem_of_getElem? hx)
  have hbatch := leased_batch hnow x.selected h.keyed (h.leased.perm (Slots.flatMap_perm hx Worker.claims))
  refine owned_set h hnow (leaseBatch_ids x.selected) ?_
  refine hbatch.perm (List.Perm.trans ?_ (Slots.flatMap_set_perm hx Worker.claims).symm)
  rw [List.append_assoc]
  refine (List.perm_append_comm.append_left x.claims).trans ?_
  rw [← List.append_assoc]
  refine List.Perm.append_right _ ?_
  rw [Worker.claims, Worker.claims, ← List.map_append]
  refine List.Perm.map _ ?_
  rw [Worker.rows, Worker.rows, List.flatten_append, List.append_assoc, List.append_assoc]
  refine List.Perm.append_left _ (List.perm_append_comm.trans ?_)
  exact (grouped_perm _).symm.append_right _

theorem owned_crash (h : Owned w) : Owned { w with workers := w.workers.eraseIdx j } := by
  refine ⟨h.keyed, h.known, fun x hx => h.now x (List.mem_of_mem_eraseIdx hx), ?_⟩
  cases hx : w.workers[j]? with
  | none =>
    rw [List.eraseIdx_of_length_le (List.getElem?_eq_none_iff.mp hx)]
    exact h.leased
  | some x =>
    exact (h.leased.perm (Slots.flatMap_perm hx Worker.claims)).sublist (List.sublist_append_right _ _)

theorem owned_settle (opts : WorkerOptions) {effects : QueueRow → Effects} (habout : About effects)
    (h : Owned w) (hx : w.workers[j]? = some x) (hnow : y.now = x.now)
    (hrows : x.rows.Perm (g ++ y.rows)) (hheld : w.time ≤ x.now + LEASE_MS) :
    Owned { w with db := batch (settle opts effects g).1 w.db, workers := w.workers.set j y } :=
  owned_worker g h hx hnow hrows (fun _ hid => settle_targets habout hid) (.inr hheld)

theorem rows_sending (hg : x.sending[i]? = some g) :
    x.rows.Perm (g ++ (x.groups.flatten ++ (x.sending.eraseIdx i).flatten)) := by
  refine ((Slots.flatten_perm hg).append_left x.groups.flatten).trans ?_
  rw [← List.append_assoc, ← List.append_assoc]
  exact List.perm_append_comm.append_right _

theorem rows_groups (hg : x.groups[i]? = some g) :
    x.rows.Perm (g ++ ((x.groups.eraseIdx i).flatten ++ x.sending.flatten)) := by
  rw [← List.append_assoc]
  exact (Slots.flatten_perm hg).append_right _

theorem step_owned {m : Move} (h : Owned w) (hm : Held w m) (hw : step u opts m w = some w') :
    Owned w' := by
  cases m with
  | tick ms =>
    cases hw
    exact ⟨h.keyed, h.known, fun x hx => (h.now x hx).trans (Nat.le_add_right _ _),
      h.leased.later (Nat.le_add_right _ _)⟩
  | enqueueMessage input ids =>
    rw [step] at hw
    split at hw
    · rename_i hids
      cases hw
      exact owned_enqueue h hids.1 hids.2
    · cases hw
  | queueRetry tenantId id =>
    cases hw
    refine owned_update h (fun _ => rfl) fun r hstatus => ?_
    simp [retryRow, hstatus]
  | queueCancel tenantId id =>
    cases hw
    refine owned_update h (fun _ => rfl) fun r hstatus => ?_
    simp [cancelRow, hstatus]
  | suppressionRemove tenantId email =>
    cases hw
    exact ⟨h.keyed, h.known, h.now, h.leased⟩
  | deleteRows ids =>
    cases hw
    refine owned_others h (Statements.nodup_delete h.keyed)
      (fun r hr => h.known r (List.mem_of_mem_filter hr)) ?_
    intro id r e hr hstatus he hle
    change Statements.row QueueRow.id id (Statements.delete _ w.db.queue) = some r
    rw [Db.row] at hr
    rw [Statements.row_delete h.keyed, hr, Option.filter_eq_some_iff]
    exact ⟨rfl, by simp [deletable, hstatus, he, hle]⟩
  | runTick picked =>
    cases hw
    refine ⟨h.keyed, h.known, List.forall_mem_append.mpr ⟨h.now, by simp⟩, ?_⟩
    simpa [World.claims, Worker.claims, Worker.rows] using h.leased
  | lease j => exact owned_lease h hw
  | send j i cap =>
    obtain ⟨x, g, hx, hg, rfl⟩ := group_of_workerStep hw
    refine owned_worker [] h hx rfl ?_ (fun _ _ => nofun) (.inl rfl)
    have hgroups : (x.groups.set i (g.drop cap)).flatten.Perm
        (g.drop cap ++ (x.groups.eraseIdx i).flatten) := Slots.flatten_set_perm hg
    rw [List.nil_append, Worker.rows, Worker.rows, List.flatten_append]
    refine (rows_groups hg).trans ?_
    refine List.Perm.trans ?_ (hgroups.symm.append_right _)
    simp only [List.flatten_cons, List.flatten_nil, List.append_nil, List.append_assoc]
    rw [← List.take_append_drop cap g, List.append_assoc]
    simp only [List.take_append_drop]
    refine List.perm_append_comm.trans ?_
    simp only [List.append_assoc]
    exact .refl _
  | outcome j i result viaSmarthost delay =>
    obtain ⟨x, g, hx, hg, rfl⟩ := group_of_workerStep hw
    exact owned_settle opts (outcomeOf_about result viaSmarthost w.time delay) h hx rfl
      (rows_sending hg) (hm x hx)
  | noAnswer j i delay =>
    obtain ⟨x, g, hx, hg, rfl⟩ := group_of_workerStep hw
    exact owned_settle opts (deferAllOf_about w.time delay) h hx rfl (rows_sending hg) (hm x hx)
  | deferGroup j i delay =>
    obtain ⟨x, g, hx, hg, rfl⟩ := group_of_workerStep hw
    exact owned_settle opts (deferAllOf_about w.time delay) h hx rfl (rows_groups hg) (hm x hx)
  | skipGroup j i =>
    obtain ⟨x, hx, hw⟩ := Option.bind_eq_some_iff.mp hw
    obtain ⟨out, hout, rfl⟩ := Option.map_eq_some_iff.mp hw
    cases hout
    cases hg : x.groups[i]? with
    | none =>
      refine owned_worker [] h hx rfl ?_ (fun _ _ => nofun) (.inl rfl)
      rw [List.eraseIdx_of_length_le (List.getElem?_eq_none_iff.mp hg)]
      exact .refl _
    | some g => exact owned_worker g h hx rfl (rows_groups hg) (fun _ _ => nofun) (.inl rfl)
  | sendDsn j =>
    obtain ⟨x, hx, hw⟩ := Option.bind_eq_some_iff.mp hw
    obtain ⟨dsn, -, rfl⟩ := Option.map_eq_some_iff.mp hw
    have hafter : Owned { w with
        db := batch [] w.db, workers := w.workers.set j { x with notices := x.notices.tail } } :=
      owned_worker [] h hx rfl (.refl _) (fun _ _ => nofun) (.inl rfl)
    exact ⟨hafter.keyed, hafter.known, hafter.now, hafter.leased⟩
  | crash j =>
    cases hw
    exact owned_crash h

theorem owned_start : Owned {} := ⟨.nil, nofun, nofun, .nil⟩

end

end Ionosphere.Mta
