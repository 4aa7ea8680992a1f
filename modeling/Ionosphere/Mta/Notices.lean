import Ionosphere.Mta.Ownership

/-! Notices to senders: which rows they may be about, and how often. A worker decides by the copy
of the row that it read before its lease. -/
namespace Ionosphere.Mta

open Ionosphere.Js Ionosphere.Lib

variable {r : QueueRow} {rc : DsnRecipient} {effects : QueueRow → Effects} {dsns : List Dsn}
  {entered entered' : List QueueRow}

variable {g : List QueueRow}

/-- What a `NOTIFY` value permits: without one failures and delays, `NEVER` nothing, and a list
what it names. -/
def Permits (u : CaseMap) (notify : Option Text) (kind : DsnKind) : Prop :=
  match notify with
  | none => kind ≠ .success
  | some notify => if trim notify = [] then kind ≠ .success
    else "NEVER".toList ∉ (toUpperCase u notify).splitOn ',' ∧
      kind.name ∈ (toUpperCase u notify).splitOn ','

theorem dsnWanted_iff {u : CaseMap} {notify : Option Text} {kind : DsnKind} :
    dsnWanted u notify kind = true ↔ Permits u notify kind := by
  cases notify with
  | none => simp [dsnWanted, Permits]
  | some notify =>
    rw [dsnWanted, Permits]
    split
    · simp
    · simp

def delays (id : Id) (dsns : List Dsn) : Nat :=
  (dsns.flatMap Dsn.recipients).countP fun rc => rc.rowId = id && rc.action = .delayed

/-- What the effects of an outcome tell about a row. -/
structure Tells (u : CaseMap) (opts : WorkerOptions) (now : Nat)
    (effects : QueueRow → Effects) : Prop where
  row : ∀ r, ∀ rc ∈ (effects r).dsnRows, rc.rowId = r.id
  one : ∀ r, (effects r).dsnRows.length ≤ 1
  delayed : ∀ r, ∀ rc ∈ (effects r).dsnRows, rc.action = .delayed →
    (noteDelayIfDue u opts r now).isSome = true ∧ .delayNotified r.id now ∈ (effects r).stmts

section

variable {u : CaseMap} {opts : WorkerOptions} {now : Nat}

theorem noteDelayIfDue_some (h : noteDelayIfDue u opts r now = some rc) :
    rc = ⟨r.id, r.rcpt, .delayed, r.dsnOrcpt⟩ ∧ r.delayNotifiedAt = none ∧
      Permits u r.dsnNotify .delay := by
  rw [noteDelayIfDue] at h
  split at h
  · cases h
  split at h
  · cases h
  rename_i hmark
  split at h
  · cases h
  split at h
  · cases h
  split at h
  · cases h
  rename_i hwanted
  refine ⟨(Option.some.inj h).symm, ?_, ?_⟩
  · simpa using hmark
  · rw [← dsnWanted_iff]
    simpa using hwanted

theorem mem_failedRecipient (h : rc ∈ failedRecipient u r) :
    rc = ⟨r.id, r.rcpt, .failed, r.dsnOrcpt⟩ ∧ Permits u r.dsnNotify .failure := by
  rw [failedRecipient] at h
  split at h
  · rename_i hwanted
    exact ⟨List.mem_singleton.mp h, dsnWanted_iff.mp hwanted⟩
  · cases h

theorem failedRecipient_length (r : QueueRow) : (failedRecipient u r).length ≤ 1 := by
  rw [failedRecipient]
  split <;> simp

theorem deferRow_tells {delay : Nat}
    (h : rc ∈ (deferRow u opts r now delay).dsnRows) :
    rc.rowId = r.id ∧ Permits u r.dsnNotify rc.action.kind ∧
      (noteDelayIfDue u opts r now).isSome = true ∧
        .delayNotified r.id now ∈ (deferRow u opts r now delay).stmts := by
  rw [deferRow, Option.mem_toList] at h
  obtain ⟨rfl, -, hpermits⟩ := noteDelayIfDue_some h
  refine ⟨rfl, hpermits, by rw [h]; rfl, ?_⟩
  rw [deferRow, h]
  exact List.mem_cons_of_mem _ (List.mem_singleton_self _)

theorem deferRow_length (r : QueueRow) (delay : Nat) :
    (deferRow u opts r now delay).dsnRows.length ≤ 1 := by
  rw [deferRow]
  cases noteDelayIfDue u opts r now <;> simp

variable (u opts now) in
theorem outcomeOf_tells (result : SmtpClientResult) (viaSmarthost : Bool) (delay : Id → Nat) :
    Tells u opts now (outcomeOf u opts result viaSmarthost now delay) ∧
      ∀ r, ∀ rc ∈ (outcomeOf u opts result viaSmarthost now delay r).dsnRows,
        Permits u r.dsnNotify rc.action.kind := by
  refine ⟨⟨?_, ?_, ?_⟩, ?_⟩
  · intro r rc hrc
    rw [outcomeOf] at hrc
    split at hrc
    · cases hrc
    split at hrc
    · rw [(mem_failedRecipient hrc).1]
    split at hrc
    · rw [(mem_failedRecipient hrc).1]
    · exact (deferRow_tells hrc).1
  · intro r
    rw [outcomeOf]
    split
    · exact Nat.zero_le _
    split
    · exact failedRecipient_length r
    split
    · exact failedRecipient_length r
    · exact deferRow_length r _
  · intro r rc hrc hdelayed
    rw [outcomeOf] at hrc ⊢
    split at hrc
    · cases hrc
    split at hrc
    · rw [(mem_failedRecipient hrc).1] at hdelayed
      cases hdelayed
    split at hrc
    · rw [(mem_failedRecipient hrc).1] at hdelayed
      cases hdelayed
    · rename_i hsent hperm hmax
      rw [if_neg hsent, if_neg hperm, if_neg hmax]
      exact (deferRow_tells hrc).2.2
  · intro r rc hrc
    rw [outcomeOf] at hrc
    split at hrc
    · cases hrc
    split at hrc
    · rw [(mem_failedRecipient hrc).1]
      exact (mem_failedRecipient hrc).2
    split at hrc
    · rw [(mem_failedRecipient hrc).1]
      exact (mem_failedRecipient hrc).2
    · exact (deferRow_tells hrc).2.1

variable (u opts now) in
/-- A row that is given up without an answer is reported in any case; so it is only if the
sender permits it that the notice is what the sender asked for. -/
theorem deferAllOf_tells (delay : Id → Nat) :
    Tells u opts now (deferAllOf u opts now delay) ∧
      ∀ r, ∀ rc ∈ (deferAllOf u opts now delay r).dsnRows,
        (opts.maxAttempts ≤ r.attempts + 1 → Permits u r.dsnNotify .failure) →
          Permits u r.dsnNotify rc.action.kind := by
  refine ⟨⟨?_, ?_, ?_⟩, ?_⟩
  · intro r rc hrc
    rw [deferAllOf] at hrc
    split at hrc
    · rw [List.mem_singleton.mp hrc]
    · exact (deferRow_tells hrc).1
  · intro r
    rw [deferAllOf]
    split
    · exact le_rfl
    · exact deferRow_length r _
  · intro r rc hrc hdelayed
    rw [deferAllOf] at hrc ⊢
    split at hrc
    · rw [List.mem_singleton.mp hrc] at hdelayed
      cases hdelayed
    · rename_i hmax
      rw [if_neg hmax]
      exact (deferRow_tells hrc).2.2
  · intro r rc hrc hpermits
    rw [deferAllOf] at hrc
    split at hrc
    · rename_i hmax
      rw [List.mem_singleton.mp hrc]
      exact hpermits hmax
    · exact (deferRow_tells hrc).2.1

theorem settle_dsn {dsn : Dsn}
    (h : (settle opts effects g).2 = some dsn) :
    opts.dsn = true ∧ dsn.recipients = g.flatMap (fun r => (effects r).dsnRows) ∧
      ∃ r ∈ g, trim r.envFrom ≠ [] := by
  rw [settle] at h
  cases hr : g.head? with
  | none =>
    rw [hr] at h
    cases h
  | some r =>
    rw [hr, sendDsn] at h
    split at h
    · cases h
    rename_i hdsn
    split at h
    · cases h
    rename_i hsender
    cases h
    rw [Bool.or_eq_true, not_or, Bool.not_eq_true', Bool.not_eq_false] at hdsn
    exact ⟨hdsn.1, rfl, r, List.mem_of_head? hr, hsender⟩

theorem delays_settle (htells : Tells u opts now effects) (hdistinct : (g.map QueueRow.id).Nodup)
    (id : Id) :
    (g.flatMap fun r => (effects r).dsnRows).countP
      (fun rc => rc.rowId = id && rc.action = .delayed) ≤ 1 := by
  induction g with
  | nil => exact Nat.zero_le _
  | cons r g ih =>
    rw [List.map_cons, List.nodup_cons] at hdistinct
    rw [List.flatMap_cons, List.countP_append]
    have hfirst := List.countP_le_length (l := (effects r).dsnRows)
      (p := fun rc => rc.rowId = id && rc.action = .delayed)
    have hone := htells.one r
    by_cases hid : r.id = id
    · -- Then no other row of the group is the one.
      have hrest : (g.flatMap fun r => (effects r).dsnRows).countP
          (fun rc => rc.rowId = id && rc.action = .delayed) = 0 := by
        rw [List.countP_eq_zero]
        intro rc hrc
        obtain ⟨r', hr', hrc⟩ := List.mem_flatMap.mp hrc
        rw [htells.row r' rc hrc, ← hid]
        have hne : r'.id ≠ r.id := fun heq => hdistinct.1 (heq ▸ List.mem_map_of_mem hr')
        simp [hne]
      omega
    · have hnone : (effects r).dsnRows.countP
          (fun rc => rc.rowId = id && rc.action = .delayed) = 0 := by
        rw [List.countP_eq_zero]
        intro rc hrc
        rw [htells.row r rc hrc]
        simp [hid]
      have := ih hdistinct.2
      omega

end

/-- The row was entered with this sender and this `NOTIFY`. -/
def Mail (entered : List QueueRow) (r : QueueRow) : Prop :=
  ∃ e ∈ entered, e.id = r.id ∧ e.envFrom = r.envFrom ∧ e.dsnNotify = r.dsnNotify

def Allowed (u : CaseMap) (entered : List QueueRow) (rc : DsnRecipient) : Prop :=
  ∃ e ∈ entered, e.id = rc.rowId ∧ Permits u e.dsnNotify rc.action.kind ∧ trim e.envFrom ≠ []

def Follows (queue queue' : List QueueRow) : Prop :=
  ∀ r' ∈ queue', ∃ r ∈ queue, r.id = r'.id ∧ r.envFrom = r'.envFrom ∧ r.dsnNotify = r'.dsnNotify ∧
    (r.delayNotifiedAt ≠ none → r'.delayNotifiedAt ≠ none)

theorem Follows.refl (queue : List QueueRow) : Follows queue queue :=
  fun r hr => ⟨r, hr, rfl, rfl, rfl, id⟩

theorem Follows.trans {queue₁ queue₂ queue₃ : List QueueRow} (h : Follows queue₁ queue₂)
    (h' : Follows queue₂ queue₃) : Follows queue₁ queue₃ := by
  intro r₃ hr₃
  obtain ⟨r₂, hr₂, hid, hfrom, hnotify, hmark⟩ := h' r₃ hr₃
  obtain ⟨r₁, hr₁, hid', hfrom', hnotify', hmark'⟩ := h r₂ hr₂
  exact ⟨r₁, hr₁, hid'.trans hid, hfrom'.trans hfrom, hnotify'.trans hnotify, hmark ∘ hmark'⟩

theorem follows_subset {queue queue' : List QueueRow} (h : queue' ⊆ queue) : Follows queue queue' :=
  fun r hr => ⟨r, h hr, rfl, rfl, rfl, id⟩

theorem follows_update {queue : List QueueRow} (p : QueueRow → Bool) {f : QueueRow → QueueRow}
    (hf : ∀ r, r.id = (f r).id ∧ r.envFrom = (f r).envFrom ∧ r.dsnNotify = (f r).dsnNotify ∧
      (r.delayNotifiedAt ≠ none → (f r).delayNotifiedAt ≠ none)) :
    Follows queue (Statements.update p f queue) := by
  intro r' hr'
  obtain ⟨r, hr, rfl⟩ := List.mem_map.mp hr'
  refine ⟨r, hr, ?_⟩
  split
  · exact hf r
  · exact ⟨rfl, rfl, rfl, id⟩

theorem follows_exec (s : Stmt) (db : Db) : Follows db.queue (s.exec db).queue := by
  cases s with
  | suppress row => exact Follows.refl _
  | delayNotified id now => exact follows_update _ fun r => ⟨rfl, rfl, rfl, fun _ => nofun⟩
  | _ => exact follows_update _ fun r => ⟨rfl, rfl, rfl, id⟩

theorem follows_batch (stmts : List Stmt) (db : Db) : Follows db.queue (batch stmts db).queue := by
  induction stmts generalizing db with
  | nil => exact Follows.refl _
  | cons s stmts ih => exact (follows_exec s db).trans (ih _)

theorem follows_leaseBatch {now : Nat} (rows queue : List QueueRow) :
    Follows queue (leaseBatch now rows queue).1 := by
  induction rows generalizing queue with
  | nil => exact Follows.refl _
  | cons row rows ih =>
    have hfirst : Follows queue (Statements.update (leasable now row.id) (leaseRow now) queue) :=
      follows_update _ fun _ => ⟨rfl, rfl, rfl, id⟩
    exact hfirst.trans (ih _)

theorem marked_batch {stmts : List Stmt} {db : Db} {id : Id} {now : Nat}
    (h : .delayNotified id now ∈ stmts) :
    ∀ r ∈ (batch stmts db).queue, r.id = id → r.delayNotifiedAt ≠ none := by
  induction stmts generalizing db with
  | nil => cases h
  | cons s stmts ih =>
    obtain rfl | h := List.mem_cons.mp h
    · intro r hr hid
      obtain ⟨r', hr', hid', -, -, hmark⟩ := follows_batch stmts _ r hr
      refine hmark ?_
      obtain ⟨r₀, -, rfl⟩ := List.mem_map.mp hr'
      by_cases hby : byId id r₀ = true
      · rw [if_pos hby]
        nofun
      · rw [if_neg hby] at hid'
        exact absurd (decide_eq_true (hid'.trans hid)) hby
    · exact ih h

def World.notices (w : World) : List Dsn := w.dsns ++ w.workers.flatMap Worker.notices

/-- What holds of the rows a worker has read. -/
structure Sound (entered : List QueueRow) (x : Worker) : Prop where
  copies : ∀ r ∈ x.selected ++ x.rows, Mail entered r
  distinct : ((x.selected ++ x.rows).map QueueRow.id).Nodup
  groups : ∀ g ∈ x.groups ++ x.sending, ∀ r ∈ g, ∀ r' ∈ g, r.envFrom = r'.envFrom

structure Informed (u : CaseMap) (w : World) : Prop where
  keyed : (w.db.queue.map QueueRow.id).Nodup
  fresh : (w.entered.map QueueRow.id).Nodup
  rows : ∀ r ∈ w.db.queue, Mail w.entered r
  workers : ∀ x ∈ w.workers, Sound w.entered x
  allowed : ∀ dsn ∈ w.notices, ∀ rc ∈ dsn.recipients, Allowed u w.entered rc
  once : ∀ id, delays id w.notices ≤ 1
  marked : ∀ id, 0 < delays id w.notices → id ∈ w.entered.map QueueRow.id ∧
    ∀ r ∈ w.db.queue, r.id = id → r.delayNotifiedAt ≠ none

/-- A worker that is about to note a delay decides by a copy that is not out of date: the row is
there and nobody has noted a delay meanwhile. -/
def Current (u : CaseMap) (opts : WorkerOptions) (w : World) (g : List QueueRow) : Prop :=
  ∀ r ∈ g, (noteDelayIfDue u opts r w.time).isSome = true →
    ∃ r' ∈ w.db.row r.id, r'.delayNotifiedAt = none

/-- No row is given up without an answer whose sender does not want to hear of failures. -/
def Wanted (u : CaseMap) (opts : WorkerOptions) (g : List QueueRow) : Prop :=
  ∀ r ∈ g, opts.dsn = true → trim r.envFrom ≠ [] → opts.maxAttempts ≤ r.attempts + 1 →
    dsnWanted u r.dsnNotify .failure = true

def Considerate (u : CaseMap) (opts : WorkerOptions) (w : World) : Move → Prop
  | .outcome j i _ _ _ => ∀ x ∈ w.workers[j]?, ∀ g ∈ x.sending[i]?, Current u opts w g
  | .noAnswer j i _ => ∀ x ∈ w.workers[j]?, ∀ g ∈ x.sending[i]?,
    Current u opts w g ∧ Wanted u opts g
  | .deferGroup j i _ => ∀ x ∈ w.workers[j]?, ∀ g ∈ x.groups[i]?,
    Current u opts w g ∧ Wanted u opts g
  | _ => True

section

variable {u : CaseMap} {opts : WorkerOptions} {w w' : World} {j i : Nat} {x y : Worker}

theorem delays_append (id : Id) (dsns dsns' : List Dsn) :
    delays id (dsns ++ dsns') = delays id dsns + delays id dsns' := by
  rw [delays, List.flatMap_append, List.countP_append, delays, delays]

theorem delays_perm (id : Id) {dsns dsns' : List Dsn} (h : dsns.Perm dsns') :
    delays id dsns = delays id dsns' :=
  (h.flatMap_right _).countP_eq _

theorem notices_perm (hx : w.workers[j]? = some x)
    (hy : (dsns ++ y.notices).Perm (w.dsns ++ x.notices)) :
    (dsns ++ (w.workers.set j y).flatMap Worker.notices).Perm w.notices := by
  have hold := (Slots.flatMap_perm hx Worker.notices).append_left w.dsns
  have hnew := (Slots.flatMap_set_perm (y := y) hx Worker.notices).append_left dsns
  rw [← List.append_assoc] at hold hnew
  exact (hnew.trans (hy.append_right _)).trans hold.symm

theorem notices_set (hx : w.workers[j]? = some x) {new : List Dsn}
    (hy : y.notices = x.notices ++ new) :
    (w.dsns ++ (w.workers.set j y).flatMap Worker.notices).Perm (w.notices ++ new) := by
  have hold := (Slots.flatMap_perm hx Worker.notices).append_left w.dsns
  have hnew := (Slots.flatMap_set_perm (y := y) hx Worker.notices).append_left w.dsns
  rw [hy, List.append_assoc] at hnew
  refine hnew.trans (List.Perm.trans ?_ (hold.append_right new).symm)
  rw [List.append_assoc, List.append_assoc]
  refine List.Perm.append_left _ (List.Perm.append_left _ ?_)
  exact List.perm_append_comm

theorem Mail.mono (hsub : entered ⊆ entered')
    (h : Mail entered r) : Mail entered' r := by
  obtain ⟨e, he, hrest⟩ := h
  exact ⟨e, hsub he, hrest⟩

theorem Allowed.mono (hsub : entered ⊆ entered') (h : Allowed u entered rc) :
    Allowed u entered' rc := by
  obtain ⟨e, he, hrest⟩ := h
  exact ⟨e, hsub he, hrest⟩

theorem Sound.mono (hsub : entered ⊆ entered')
    (h : Sound entered x) : Sound entered' x :=
  ⟨fun r hr => (h.copies r hr).mono hsub, h.distinct, h.groups⟩

theorem informed_queue {db' : Db} (h : Informed u w)
    (hkeyed : (db'.queue.map QueueRow.id).Nodup) (hfollows : Follows w.db.queue db'.queue) :
    Informed u { w with db := db' } where
  keyed := hkeyed
  fresh := h.fresh
  rows := by
    intro r' hr'
    obtain ⟨r, hr, hid, hfrom, hnotify, -⟩ := hfollows r' hr'
    obtain ⟨e, he, heid, hefrom, henotify⟩ := h.rows r hr
    exact ⟨e, he, heid.trans hid, hefrom.trans hfrom, henotify.trans hnotify⟩
  workers := h.workers
  allowed := h.allowed
  once := h.once
  marked := by
    intro id hpos
    obtain ⟨hmem, hmark⟩ := h.marked id hpos
    refine ⟨hmem, fun r' hr' hid' => ?_⟩
    obtain ⟨r, hr, hid, -, -, hkeep⟩ := hfollows r' hr'
    exact hkeep (hmark r hr (hid.trans hid'))

theorem informed_workers (gone : List Dsn) {workers : List Worker} (h : Informed u w)
    (hworkers : ∀ x ∈ workers, Sound w.entered x)
    (hnotices : ((dsns ++ workers.flatMap Worker.notices) ++ gone).Perm w.notices) :
    Informed u { w with workers, dsns } := by
  have hle : ∀ id, delays id (dsns ++ workers.flatMap Worker.notices) ≤ delays id w.notices := by
    intro id
    rw [← delays_perm id hnotices, delays_append id _ gone]
    exact Nat.le_add_right _ _
  exact ⟨h.keyed, h.fresh, h.rows, hworkers,
    fun dsn hdsn => h.allowed dsn (hnotices.subset (List.mem_append_left gone hdsn)),
    fun id => (hle id).trans (h.once id), fun id hpos => h.marked id (hpos.trans_le (hle id))⟩

theorem sound_set (h : Informed u w) (hy : Sound w.entered y) :
    ∀ x' ∈ w.workers.set j y, Sound w.entered x' := by
  intro x' hx'
  obtain hx' | rfl := List.mem_or_eq_of_mem_set hx'
  · exact h.workers x' hx'
  · exact hy

theorem informed_set (h : Informed u w) (hx : w.workers[j]? = some x)
    (hy : Sound w.entered x → Sound w.entered y)
    (hnotices : (dsns ++ y.notices).Perm (w.dsns ++ x.notices)) :
    Informed u { w with workers := w.workers.set j y, dsns } := by
  refine informed_workers [] h (sound_set h (hy (h.workers x (List.mem_of_getElem? hx)))) ?_
  rw [List.append_nil]
  exact notices_perm hx hnotices

theorem informed_settle (opts : WorkerOptions)
    (h : Informed u w) (hx : w.workers[j]? = some x) (htells : Tells u opts w.time effects)
    (hg : ∀ r ∈ g, r ∈ x.rows) (hdistinct : (g.map QueueRow.id).Nodup)
    (hgroup : ∀ r ∈ g, ∀ r' ∈ g, r.envFrom = r'.envFrom)
    (hpermits : opts.dsn = true → ∀ r ∈ g, trim r.envFrom ≠ [] → ∀ rc ∈ (effects r).dsnRows,
      Permits u r.dsnNotify rc.action.kind)
    (hcurrent : Current u opts w g) (hy : Sound w.entered y)
    (hnotices : y.notices = x.notices ++ (settle opts effects g).2.toList) :
    Informed u { w with
      db := batch (settle opts effects g).1 w.db, workers := w.workers.set j y } := by
  have hsound := h.workers x (List.mem_of_getElem? hx)
  have hperm := notices_set hx hnotices
  have hids : (batch (settle opts effects g).1 w.db).queue.map QueueRow.id =
      w.db.queue.map QueueRow.id := batch_ids _
  have hdb : Informed u { w with db := batch (settle opts effects g).1 w.db } :=
    informed_queue h (hids ▸ h.keyed) (follows_batch _ _)
  have hworkers : ∀ x' ∈ w.workers.set j y, Sound w.entered x' := sound_set h hy
  cases hdsn : (settle opts effects g).2 with
  | none =>
    rw [hdsn, Option.toList_none, List.append_nil] at hperm
    refine informed_workers [] hdb hworkers ?_
    rw [List.append_nil]
    exact hperm
  | some dsn =>
    obtain ⟨hhook, hrecipients, r₀, hr₀, hsender⟩ := settle_dsn hdsn
    rw [hdsn, Option.toList_some] at hperm
    have hone := delays_settle htells hdistinct
    have hnew : ∀ id, delays id [dsn] = (g.flatMap fun r => (effects r).dsnRows).countP
        (fun rc => rc.rowId = id && rc.action = .delayed) := by
      intro id
      rw [delays, List.flatMap_singleton, hrecipients]
    have hsum : ∀ id, delays id (w.dsns ++ (w.workers.set j y).flatMap Worker.notices) =
        delays id w.notices + delays id [dsn] := by
      intro id
      rw [delays_perm id hperm, delays_append]
    -- Whom the notice tells about as delayed nobody was told about, and the batch marks.
    have hdelayed : ∀ id, 0 < delays id [dsn] → delays id w.notices = 0 ∧
        id ∈ w.entered.map QueueRow.id ∧
          ∀ r ∈ (batch (settle opts effects g).1 w.db).queue, r.id = id →
            r.delayNotifiedAt ≠ none := by
      intro id hpos
      rw [hnew, List.countP_pos_iff] at hpos
      obtain ⟨rc, hrc, hthis⟩ := hpos
      obtain ⟨r, hr, hrc⟩ := List.mem_flatMap.mp hrc
      rw [Bool.and_eq_true, decide_eq_true_eq, decide_eq_true_eq, htells.row r rc hrc] at hthis
      obtain ⟨hid, haction⟩ := hthis
      obtain ⟨hnote, hstmt⟩ := htells.delayed r rc hrc haction
      obtain ⟨r', hr', hnone⟩ := hcurrent r hr hnote
      obtain ⟨hmem, hkey⟩ := Statements.row_mem hr'
      refine ⟨?_, ?_, ?_⟩
      · by_contra hne
        exact (h.marked id (Nat.pos_of_ne_zero hne)).2 r' hmem (hkey.trans hid) hnone
      · obtain ⟨e, he, heid, -⟩ := hsound.copies r (List.mem_append_right _ (hg r hr))
        exact List.mem_map.mpr ⟨e, he, heid.trans hid⟩
      · rw [← hid]
        exact marked_batch (List.mem_append_left _ (List.mem_flatMap.mpr ⟨r, hr, hstmt⟩))
    refine ⟨hdb.keyed, h.fresh, hdb.rows, hworkers, ?_, ?_, ?_⟩
    · intro dsn' hdsn' rc hrc
      obtain hdsn' | hdsn' := List.mem_append.mp (hperm.subset hdsn')
      · exact h.allowed dsn' hdsn' rc hrc
      · cases List.mem_singleton.mp hdsn'
        rw [hrecipients] at hrc
        obtain ⟨r, hr, hrc⟩ := List.mem_flatMap.mp hrc
        obtain ⟨e, he, heid, hefrom, henotify⟩ :=
          hsound.copies r (List.mem_append_right _ (hg r hr))
        have hsender' : trim r.envFrom ≠ [] := hgroup r hr r₀ hr₀ ▸ hsender
        exact ⟨e, he, heid.trans (htells.row r rc hrc).symm,
          henotify ▸ hpermits hhook r hr hsender' rc hrc, hefrom ▸ hsender'⟩
    · intro id
      rw [World.notices, hsum]
      by_cases hpos : 0 < delays id [dsn]
      · rw [(hdelayed id hpos).1, hnew, Nat.zero_add]
        exact hone id
      · have := h.once id
        omega
    · intro id hpos
      rw [World.notices, hsum] at hpos
      by_cases hnew : 0 < delays id [dsn]
      · exact (hdelayed id hnew).2
      · exact hdb.marked id (by
          change 0 < delays id w.notices
          omega)

theorem Sound.less (gone : List QueueRow) (h : Sound entered x)
    (hperm : ((y.selected ++ y.rows) ++ gone).Perm (x.selected ++ x.rows))
    (hgroups : ∀ g ∈ y.groups ++ y.sending, ∃ g' ∈ x.groups ++ x.sending, g ⊆ g') :
    Sound entered y where
  copies := fun r hr => h.copies r (hperm.subset (List.mem_append_left gone hr))
  distinct := by
    have hall := (hperm.map QueueRow.id).nodup_iff.mpr h.distinct
    rw [List.map_append] at hall
    exact hall.of_append_left
  groups := by
    intro g hg r hr r' hr'
    obtain ⟨g', hg', hsub⟩ := hgroups g hg
    exact h.groups g' hg' r (hsub hr) r' (hsub hr')

theorem leaseBatch_sublist (now : Nat) (rows queue : List QueueRow) :
    (leaseBatch now rows queue).2.Sublist rows := by
  induction rows generalizing queue with
  | nil => exact .slnil
  | cons row rows ih =>
    rw [leaseBatch_cons]
    dsimp only
    split
    · exact (ih _).cons_cons row
    · exact (ih _).cons row

def OneKey (g : List QueueRow) : Prop := ∀ r ∈ g, ∀ r' ∈ g, groupKey r = groupKey r'

theorem addToGroup_oneKey (row : QueueRow) (gs : List (List QueueRow)) (h : ∀ g ∈ gs, OneKey g) :
    ∀ g ∈ addToGroup row gs, OneKey g := by
  induction gs with
  | nil =>
    intro g hg r hr r' hr'
    rw [List.mem_singleton.mp hg, List.mem_singleton] at hr hr'
    rw [hr, hr']
  | cons g gs ih =>
    rw [List.forall_mem_cons] at h
    rw [addToGroup]
    split
    · rename_i hkey
      rw [List.forall_mem_cons]
      refine ⟨?_, h.2⟩
      obtain ⟨r₀, hr₀, hkey⟩ := Option.map_eq_some_iff.mp hkey
      have hall : ∀ r ∈ g ++ [row], groupKey r = groupKey row := by
        rw [List.forall_mem_append, List.forall_mem_singleton]
        exact ⟨fun r hr => (h.1 r hr r₀ (List.mem_of_head? hr₀)).trans hkey, rfl⟩
      intro r hr r' hr'
      exact (hall r hr).trans (hall r' hr').symm
    · rw [List.forall_mem_cons]
      exact ⟨h.1, ih h.2⟩

theorem grouped_oneKey (rows : List QueueRow) : ∀ g ∈ grouped rows, OneKey g := by
  have hfold : ∀ gs : List (List QueueRow), (∀ g ∈ gs, OneKey g) →
      ∀ g ∈ rows.foldl (fun groups row => addToGroup row groups) gs, OneKey g := by
    induction rows with
    | nil => exact fun _ h => h
    | cons row rows ih => exact fun gs h => ih _ (addToGroup_oneKey row gs h)
  exact hfold [] nofun

theorem sound_lease (queue : List QueueRow) (h : Sound entered x) :
    Sound entered { x with
      selected := [], groups := x.groups ++ grouped (leaseBatch x.now x.selected queue).2 } := by
  have hsub := leaseBatch_sublist x.now x.selected queue
  have hrows : (x.groups ++ grouped (leaseBatch x.now x.selected queue).2).flatten.Perm
      ((leaseBatch x.now x.selected queue).2 ++ x.groups.flatten) := by
    rw [List.flatten_append]
    exact List.perm_append_comm.trans ((grouped_perm _).append_right _)
  have hperm : ((x.groups ++ grouped (leaseBatch x.now x.selected queue).2).flatten ++
      x.sending.flatten).Perm ((leaseBatch x.now x.selected queue).2 ++ x.rows) := by
    rw [Worker.rows, ← List.append_assoc]
    exact hrows.append_right _
  have hall : ((leaseBatch x.now x.selected queue).2 ++ x.rows).Sublist (x.selected ++ x.rows) :=
    hsub.append_right _
  refine ⟨?_, ?_, ?_⟩
  · intro r hr
    exact h.copies r (hall.subset (hperm.subset hr))
  · exact ((hperm.map QueueRow.id).nodup_iff).mpr (h.distinct.sublist (hall.map _))
  · intro g hg r hr r' hr'
    dsimp only at hg
    rw [List.append_assoc, List.mem_append, List.mem_append] at hg
    obtain hg | hg | hg := hg
    · exact h.groups g (List.mem_append_left _ hg) r hr r' hr'
    · have hkey := grouped_oneKey _ g hg r hr r' hr'
      simp only [groupKey, Prod.mk.injEq] at hkey
      exact hkey.2.2.1
    · exact h.groups g (List.mem_append_right _ hg) r hr r' hr'

theorem sound_sent (notices : List Dsn)
    (hg : x.sending[i]? = some g) (h : Sound entered x) :
    Sound entered { x with sending := x.sending.eraseIdx i, notices } := by
  refine h.less g ?_ ?_
  · refine List.perm_append_comm.trans ?_
    refine List.Perm.trans ?_ ((rows_sending hg).symm.append_left x.selected)
    rw [← List.append_assoc, ← List.append_assoc]
    exact List.perm_append_comm.append_right _
  · intro g' hg'
    obtain hg' | hg' := List.mem_append.mp hg'
    · exact ⟨g', List.mem_append_left _ hg', List.Subset.refl _⟩
    · exact ⟨g', List.mem_append_right _ (List.mem_of_mem_eraseIdx hg'), List.Subset.refl _⟩

theorem sound_dropped (notices : List Dsn)
    (hg : x.groups[i]? = some g) (h : Sound entered x) :
    Sound entered { x with groups := x.groups.eraseIdx i, notices } := by
  refine h.less g ?_ ?_
  · refine List.perm_append_comm.trans ?_
    refine List.Perm.trans ?_ ((rows_groups hg).symm.append_left x.selected)
    rw [← List.append_assoc, ← List.append_assoc]
    exact List.perm_append_comm.append_right _
  · intro g' hg'
    obtain hg' | hg' := List.mem_append.mp hg'
    · exact ⟨g', List.mem_append_left _ (List.mem_of_mem_eraseIdx hg'), List.Subset.refl _⟩
    · exact ⟨g', List.mem_append_right _ hg', List.Subset.refl _⟩

theorem sound_send {cap : Nat}
    (hg : x.groups[i]? = some g) (h : Sound entered x) :
    Sound entered { x with
      groups := x.groups.set i (g.drop cap), sending := x.sending ++ [g.take cap] } := by
  refine h.less [] ?_ ?_
  · rw [List.append_nil]
    refine List.Perm.append_left _ ?_
    have hset : (x.groups.set i (g.drop cap)).flatten.Perm
        (g.drop cap ++ (x.groups.eraseIdx i).flatten) := Slots.flatten_set_perm hg
    rw [Worker.rows, Worker.rows, List.flatten_append, List.flatten_singleton]
    refine (List.perm_append_comm.trans ?_).trans ((rows_groups hg).symm)
    rw [List.append_assoc]
    refine (List.Perm.append_left _ (hset.append_left _)).trans ?_
    rw [← List.append_assoc (g.take cap), List.take_append_drop]
    refine List.perm_append_comm.trans ?_
    rw [List.append_assoc]
  · intro g' hg'
    have hmem : g ∈ x.groups ++ x.sending := List.mem_append_left _ (List.mem_of_getElem? hg)
    obtain hg' | hg' := List.mem_append.mp hg'
    · obtain hg' | rfl := List.mem_or_eq_of_mem_set hg'
      · exact ⟨g', List.mem_append_left _ hg', List.Subset.refl _⟩
      · exact ⟨g, hmem, List.drop_subset _ _⟩
    · obtain hg' | hg' := List.mem_append.mp hg'
      · exact ⟨g', List.mem_append_right _ hg', List.Subset.refl _⟩
      · cases List.mem_singleton.mp hg'
        exact ⟨g, hmem, List.take_subset _ _⟩

theorem Sound.group {g rest : List QueueRow} (h : Sound entered x)
    (hg : x.rows.Perm (g ++ rest)) : (g.map QueueRow.id).Nodup ∧ ∀ r ∈ g, r ∈ x.rows := by
  have hrows := h.distinct
  rw [List.map_append] at hrows
  have hall := (hg.map QueueRow.id).nodup_iff.mp hrows.of_append_right
  rw [List.map_append] at hall
  exact ⟨hall.of_append_left, fun r hr => hg.symm.subset (List.mem_append_left _ hr)⟩

theorem informed_enqueue {input : EnqueueInput} {ids : List Id} (h : Informed u w)
    (hnodup : ids.Nodup) (hnew : ∀ id ∈ ids, id ∉ w.entered.map QueueRow.id) :
    Informed u { w with
      db := (enqueueMessage u input w.time ids w.db).1
      entered := w.entered ++ input.rows u w.time ids w.db } := by
  have hsub : ((input.rows u w.time ids w.db).map QueueRow.id).Sublist ids := rows_ids_sublist
  have hold : w.entered ⊆ w.entered ++ input.rows u w.time ids w.db :=
    List.subset_append_left _ _
  have hknown : ∀ r ∈ w.db.queue, r.id ∈ w.entered.map QueueRow.id := by
    intro r hr
    obtain ⟨e, he, heid, -⟩ := h.rows r hr
    exact List.mem_map.mpr ⟨e, he, heid⟩
  refine ⟨?_, ?_, ?_, fun x hx => (h.workers x hx).mono hold,
    fun dsn hdsn rc hrc => (h.allowed dsn hdsn rc hrc).mono hold, h.once, ?_⟩
  · change ((w.db.queue ++ _).map QueueRow.id).Nodup
    rw [List.map_append, List.nodup_append]
    refine ⟨h.keyed, hnodup.sublist hsub, ?_⟩
    intro id hid id' hid' heq
    obtain ⟨r, hr, rfl⟩ := List.mem_map.mp hid
    exact hnew id' (hsub.subset hid') (heq ▸ hknown r hr)
  · rw [List.map_append, List.nodup_append]
    exact ⟨h.fresh, hnodup.sublist hsub, fun id hid id' hid' heq =>
      hnew id' (hsub.subset hid') (heq ▸ hid)⟩
  · intro r hr
    obtain hr | hr := List.mem_append.mp hr
    · exact (h.rows r hr).mono hold
    · exact ⟨r, List.mem_append_right _ hr, rfl, rfl, rfl⟩
  · intro id hpos
    obtain ⟨hmem, hmark⟩ := h.marked id hpos
    refine ⟨by rw [List.map_append]; exact List.mem_append_left _ hmem, fun r hr hid => ?_⟩
    obtain hr | hr := List.mem_append.mp hr
    · exact hmark r hr hid
    · exact absurd hmem (hnew id (hsub.subset (hid ▸ List.mem_map_of_mem hr)))

theorem step_informed {m : Move} (h : Informed u w) (hm : Considerate u opts w m)
    (hw : step u opts m w = some w') : Informed u w' := by
  cases m with
  | tick ms =>
    cases hw
    exact ⟨h.keyed, h.fresh, h.rows, h.workers, h.allowed, h.once, h.marked⟩
  | enqueueMessage input ids =>
    rw [step] at hw
    split at hw
    · rename_i hids
      cases hw
      exact informed_enqueue h hids.1 hids.2
    · cases hw
  | queueRetry tenantId id =>
    cases hw
    exact informed_queue h (Statements.nodup_update (fun _ => rfl) h.keyed)
      (follows_update _ fun _ => ⟨rfl, rfl, rfl, fun hmark => hmark⟩)
  | queueCancel tenantId id =>
    cases hw
    exact informed_queue h (Statements.nodup_update (fun _ => rfl) h.keyed)
      (follows_update _ fun _ => ⟨rfl, rfl, rfl, fun hmark => hmark⟩)
  | suppressionRemove tenantId email =>
    cases hw
    exact informed_queue h h.keyed (Follows.refl _)
  | deleteRows ids =>
    cases hw
    exact informed_queue h (Statements.nodup_delete h.keyed)
      (follows_subset (List.filter_subset_self _))
  | runTick picked =>
    cases hw
    refine informed_workers [] h (List.forall_mem_append.mpr ⟨h.workers, ?_⟩) ?_
    · rw [List.forall_mem_singleton]
      refine ⟨fun r hr => ?_, ?_, List.forall_mem_nil _⟩
      · rw [Worker.rows, List.flatten_nil, List.append_nil, List.append_nil] at hr
        exact h.rows r (List.mem_of_mem_filter hr)
      · rw [Worker.rows, List.flatten_nil, List.append_nil, List.append_nil]
        exact h.keyed.sublist (List.filter_sublist.map _)
    · rw [List.flatMap_append, List.flatMap_singleton, List.append_nil, List.append_nil]
      exact .refl _
  | lease j =>
    obtain ⟨x, hx, rfl⟩ := Option.map_eq_some_iff.mp hw
    have hids : (leaseBatch x.now x.selected w.db.queue).1.map QueueRow.id =
        w.db.queue.map QueueRow.id := leaseBatch_ids x.selected
    have hdb : Informed u { w with
        db := { w.db with queue := (leaseBatch x.now x.selected w.db.queue).1 } } :=
      informed_queue h (hids ▸ h.keyed) (follows_leaseBatch _ _)
    exact informed_set hdb hx (sound_lease _) (.refl _)
  | send j i cap =>
    obtain ⟨x, g, hx, hg, rfl⟩ := group_of_workerStep hw
    exact informed_set h hx (sound_send hg) (.refl _)
  | outcome j i result viaSmarthost delay =>
    obtain ⟨x, g, hx, hg, rfl⟩ := group_of_workerStep hw
    have hsound := h.workers x (List.mem_of_getElem? hx)
    obtain ⟨htells, hpermits⟩ :=
      outcomeOf_tells u opts w.time result viaSmarthost delay
    obtain ⟨hdistinct, hsub⟩ := hsound.group (rows_sending hg)
    exact informed_settle opts h hx htells hsub hdistinct
      (hsound.groups g (List.mem_append_right _ (List.mem_of_getElem? hg)))
      (fun _ r _ _ rc hrc => hpermits r rc hrc) (hm x hx g hg) (sound_sent _ hg hsound) rfl
  | noAnswer j i delay =>
    obtain ⟨x, g, hx, hg, rfl⟩ := group_of_workerStep hw
    have hsound := h.workers x (List.mem_of_getElem? hx)
    obtain ⟨htells, hpermits⟩ := deferAllOf_tells u opts w.time delay
    obtain ⟨hdistinct, hsub⟩ := hsound.group (rows_sending hg)
    obtain ⟨hcurrent, hwanted⟩ := hm x hx g hg
    exact informed_settle opts h hx htells hsub hdistinct
      (hsound.groups g (List.mem_append_right _ (List.mem_of_getElem? hg)))
      (fun hdsn r hr hsender rc hrc => hpermits r rc hrc fun hmax =>
        dsnWanted_iff.mp (hwanted r hr hdsn hsender hmax))
      hcurrent (sound_sent _ hg hsound) rfl
  | deferGroup j i delay =>
    obtain ⟨x, g, hx, hg, rfl⟩ := group_of_workerStep hw
    have hsound := h.workers x (List.mem_of_getElem? hx)
    obtain ⟨htells, hpermits⟩ := deferAllOf_tells u opts w.time delay
    obtain ⟨hdistinct, hsub⟩ := hsound.group (rows_groups hg)
    obtain ⟨hcurrent, hwanted⟩ := hm x hx g hg
    exact informed_settle opts h hx htells hsub hdistinct
      (hsound.groups g (List.mem_append_left _ (List.mem_of_getElem? hg)))
      (fun hdsn r hr hsender rc hrc => hpermits r rc hrc fun hmax =>
        dsnWanted_iff.mp (hwanted r hr hdsn hsender hmax))
      hcurrent (sound_dropped _ hg hsound) rfl
  | skipGroup j i =>
    obtain ⟨x, hx, hw⟩ := Option.bind_eq_some_iff.mp hw
    obtain ⟨out, hout, rfl⟩ := Option.map_eq_some_iff.mp hw
    cases hout
    refine informed_set h hx (fun hsound => ?_) (.refl _)
    cases hg : x.groups[i]? with
    | none =>
      rw [List.eraseIdx_of_length_le (List.getElem?_eq_none_iff.mp hg)]
      exact hsound
    | some g => exact sound_dropped x.notices hg hsound
  | sendDsn j =>
    obtain ⟨x, hx, hw⟩ := Option.bind_eq_some_iff.mp hw
    obtain ⟨dsn, hdsn, rfl⟩ := Option.map_eq_some_iff.mp hw
    refine informed_set h hx (fun hsound => ⟨hsound.copies, hsound.distinct, hsound.groups⟩) ?_
    rw [List.append_assoc, List.singleton_append, List.cons_head?_tail hdsn]
  | crash j =>
    cases hw
    cases hx : w.workers[j]? with
    | none =>
      rw [List.eraseIdx_of_length_le (List.getElem?_eq_none_iff.mp hx)]
      exact h
    | some x =>
      refine informed_workers x.notices h (fun x' hx' => h.workers x' (List.mem_of_mem_eraseIdx hx'))
        ?_
      rw [List.append_assoc]
      refine (List.perm_append_comm.append_left w.dsns).trans ?_
      exact ((Slots.flatMap_perm hx Worker.notices).append_left w.dsns).symm

theorem informed_start : Informed u {} :=
  ⟨.nil, .nil, nofun, nofun, nofun, fun _ => Nat.zero_le _, fun _ h => absurd h (Nat.lt_irrefl _)⟩

/-- However workers and everything else take turns: a notice about a row is one its `NOTIFY`
permits and not to the null sender, and there is at most one about its delay. That needs that
workers decide by copies that are not out of date, and that nothing is given up without an
answer whose sender does not want to know. -/
theorem dsn_policy {ms : List Move} (h : Schedule.run (step u opts) ms {} = some w)
    (hall : Schedule.Always (step u opts) (Considerate u opts) ms {}) :
    (w.entered.map QueueRow.id).Nodup ∧
    (∀ dsn ∈ w.dsns, ∀ rc ∈ dsn.recipients, ∃ r ∈ w.entered, r.id = rc.rowId ∧
      Permits u r.dsnNotify rc.action.kind ∧ trim r.envFrom ≠ []) ∧
    ∀ id, delays id w.dsns ≤ 1 := by
  have hw : Informed u w := hall.invariant informed_start (fun _ _ _ => step_informed) h
  refine ⟨hw.fresh, fun dsn hdsn => hw.allowed dsn (List.mem_append_left _ hdsn), fun id => ?_⟩
  have hle := hw.once id
  rw [World.notices, delays_append] at hle
  omega

end

instance {u : CaseMap} {opts : WorkerOptions} {w : World} {g : List QueueRow} :
    Decidable (Current u opts w g) :=
  inferInstanceAs (Decidable (∀ r ∈ g, _ → _))

instance {u : CaseMap} {opts : WorkerOptions} {g : List QueueRow} : Decidable (Wanted u opts g) :=
  inferInstanceAs (Decidable (∀ r ∈ g, _ → _))

instance {u : CaseMap} {opts : WorkerOptions} {w : World} {m : Move} :
    Decidable (Considerate u opts w m) := by
  cases m <;> unfold Considerate <;> infer_instance

/-- A message whose sender says what it wants to hear. -/
def notifyInput (notify : Text) : EnqueueInput :=
  { tenantId := ['t'], blobId := ['m'], envFrom := ['s', '@', 'a'], rcpts := [['r', '@', 'b']]
    perRcpt := [(['r', '@', 'b'], { notify := some notify })] }

/-- The recipient's host puts the message off, four hours after it was entered. -/
def putOff : List Move :=
  [.enqueueMessage (notifyInput "FAILURE,DELAY".toList) [['q']], .tick DELAY_NOTIFY_AFTER_MS,
    .runTick [['q']], .lease 0, .send 0 0 1,
    .outcome 0 0 ⟨false, 451, false, [(['r', '@', 'b'], ⟨451, false⟩)]⟩ false (fun _ => 60000),
    .sendDsn 0]

theorem dsn_policy_putOff :
    ∃ w, Schedule.run (step ⟨id, id⟩ ⟨true, 8⟩) putOff {} = some w ∧
      w.dsns.map Dsn.recipients = [[⟨['q'], ['r', '@', 'b'], .delayed, none⟩]] ∧
      ∀ id, delays id w.dsns ≤ 1 := by
  have hrun : (Schedule.run (step ⟨id, id⟩ ⟨true, 8⟩) putOff {}).map
      (fun w => w.dsns.map Dsn.recipients) =
      some [[⟨['q'], ['r', '@', 'b'], .delayed, none⟩]] := by
    decide +kernel
  obtain ⟨w, hw, hdsns⟩ := Option.map_eq_some_iff.mp hrun
  exact ⟨w, hw, hdsns, (dsn_policy hw (by decide +kernel)).2.2⟩

/-- No host of the recipient's domain can be found, and the attempts are used up. -/
def unreachable : List Move :=
  [.enqueueMessage (notifyInput "NEVER".toList) [['q']], .runTick [['q']], .lease 0,
    .deferGroup 0 0 (fun _ => 0), .sendDsn 0]

theorem dsn_policy_fails :
    ¬ ∀ (u : CaseMap) (opts : WorkerOptions) (ms : List Move) (w : World),
      Schedule.run (step u opts) ms {} = some w →
      (∀ dsn ∈ w.dsns, ∀ rc ∈ dsn.recipients, ∃ r ∈ w.entered, r.id = rc.rowId ∧
        Permits u r.dsnNotify rc.action.kind ∧ trim r.envFrom ≠ []) ∧
      ∀ id, delays id w.dsns ≤ 1 := by
  intro h
  have hrun : (Schedule.run (step ⟨id, id⟩ ⟨true, 1⟩) unreachable {}).map
      (fun w => (w.dsns, w.entered.map QueueRow.dsnNotify)) =
      some ([⟨['t'], ['s', '@', 'a'], [⟨['q'], ['r', '@', 'b'], .failed, none⟩]⟩],
        [some "NEVER".toList]) := by
    decide +kernel
  obtain ⟨w, hw, hrun⟩ := Option.map_eq_some_iff.mp hrun
  obtain ⟨hdsns, hentered⟩ := Prod.mk.inj hrun
  have hall := (h ⟨id, id⟩ ⟨true, 1⟩ unreachable w hw).1
  rw [hdsns] at hall
  obtain ⟨r, hr, -, hpermits, -⟩ := hall _ (List.mem_singleton_self _) _ (List.mem_singleton_self _)
  have hmem : r.dsnNotify ∈ w.entered.map QueueRow.dsnNotify := List.mem_map_of_mem hr
  rw [hentered, List.mem_singleton] at hmem
  rw [hmem, ← dsnWanted_iff] at hpermits
  exact absurd hpermits (by decide +kernel)

end Ionosphere.Mta
