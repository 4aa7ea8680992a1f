import Ionosphere.Js.Text
import Ionosphere.Lib.Schedule
import Ionosphere.Lib.Statements

/-! `DbMaildropLock`: leases on accounts in a table that several nodes share. A call reads the
clock when it starts, and its statements come later, one by one; in between others have theirs. -/
namespace Ionosphere.Store.MaildropLock

open Ionosphere.Js Ionosphere.Lib

structure LockRow where
  accountId : Text
  owner : Text
  expiresAt : Nat
  deriving DecidableEq

variable {r : LockRow} {p : LockRow → Bool} {a o : Text}

abbrev Locks : Type := List LockRow

def lockOf (accountId : Text) (t : Locks) : Option LockRow :=
  Statements.row LockRow.accountId accountId t

/-- A call in flight; `now` is what it read when it started. -/
inductive Call where
  /-- `retried` when the row was there and only an expired one can be taken over. -/
  | acquire (accountId owner : Text) (now : Nat) (retried : Bool)
  | refresh (accountId owner : Text) (now : Nat)
  | release (accountId owner : Text)
  | sweepExpired (now graceMs : Nat)
  deriving DecidableEq

inductive Outcome where
  | again (c : Call)
  | answer (granted : Bool)
  | done
  deriving DecidableEq

/-- `WHERE account_id = ? AND expires_at <= ?`. -/
def expired (accountId : Text) (now : Nat) (r : LockRow) : Bool :=
  r.accountId = accountId && r.expiresAt ≤ now

/-- `WHERE account_id = ? AND owner = ?`. -/
def ownedBy (accountId owner : Text) (r : LockRow) : Bool :=
  r.accountId = accountId && r.owner = owner

def Call.exec (ttlMs : Nat) : Call → Locks → Locks × Outcome
  | acquire accountId owner now false, t =>
    (Statements.insertIgnore LockRow.accountId ⟨accountId, owner, now + ttlMs⟩ t,
      if (lockOf accountId t).isSome then .again (.acquire accountId owner now true)
      else .answer true)
  | acquire accountId owner now true, t =>
    (Statements.update (expired accountId now)
        (fun r => { r with owner := owner, expiresAt := now + ttlMs }) t,
      .answer (t.countP (expired accountId now) = 1))
  | refresh accountId owner now, t =>
    (Statements.update (ownedBy accountId owner) (fun r => { r with expiresAt := now + ttlMs }) t,
      .answer (t.countP (ownedBy accountId owner) = 1))
  | release accountId owner, t => (Statements.delete (ownedBy accountId owner) t, .done)
  | sweepExpired now graceMs, t =>
    (Statements.delete (fun r => r.expiresAt + graceMs ≤ now) t, .done)

structure Answer where
  accountId : Text
  owner : Text
  acquired : Bool
  granted : Bool
  deriving DecidableEq

structure World where
  time : Nat := 0
  locks : Locks := []
  calls : List Call := []
  /-- What acquire and refresh have answered. -/
  answers : List Answer := []
  /-- Until when an owner holds the lease that its last granted call gave it, unless it has
  given it back. -/
  lease : Text → Text → Option Nat := fun _ _ => none

inductive Move where
  | tick (ms : Nat)
  | acquire (accountId owner : Text)
  | refresh (accountId owner : Text)
  | release (accountId owner : Text)
  | sweepExpired (graceMs : Nat)
  /-- The next statement of the call at this place. -/
  | statement (i : Nat)

def Call.leases (ttlMs : Nat) (c : Call) (out : Outcome) (lease : Text → Text → Option Nat) :
    Text → Text → Option Nat :=
  match c, out with
  | .acquire a o now _, .answer true | .refresh a o now, .answer true =>
    fun a' o' => if a' = a ∧ o' = o then some (now + ttlMs) else lease a' o'
  | .release a o, _ => fun a' o' => if a' = a ∧ o' = o then none else lease a' o'
  | _, _ => lease

def Call.answered (c : Call) (out : Outcome) : List Answer :=
  match c, out with
  | .acquire a o _ _, .answer b => [⟨a, o, true, b⟩]
  | .refresh a o _, .answer b => [⟨a, o, false, b⟩]
  | _, _ => []

def step (ttlMs : Nat) : Move → World → Option World
  | .tick ms, w => some { w with time := w.time + ms }
  | .acquire a o, w => some { w with calls := w.calls ++ [.acquire a o w.time false] }
  | .refresh a o, w => some { w with calls := w.calls ++ [.refresh a o w.time] }
  | .release a o, w => some { w with calls := w.calls ++ [.release a o] }
  | .sweepExpired graceMs, w => some { w with calls := w.calls ++ [.sweepExpired w.time graceMs] }
  | .statement i, w => (w.calls[i]?).map fun c =>
    let out := c.exec ttlMs w.locks
    { w with
      locks := out.1
      calls := match out.2 with
        | .again c' => w.calls.set i c'
        | _ => w.calls.eraseIdx i
      answers := w.answers ++ c.answered out.2
      lease := c.leases ttlMs out.2 w.lease }

def Call.now : Call → Nat
  | acquire _ _ now _ | refresh _ _ now | sweepExpired now _ => now
  | release _ _ => 0

def Backed (time : Nat) (t : Locks) (lease : Text → Text → Option Nat) : Prop :=
  ∀ a o e, lease a o = some e → time < e → lockOf a t = some ⟨a, o, e⟩

section

variable {ttlMs time now : Nat} {t : Locks} {lease : Text → Text → Option Nat}
  {accountId owner : Text}

theorem lockOf_insert (a : Text) (r : LockRow) :
    lockOf a (Statements.insertIgnore LockRow.accountId r t) =
      (lockOf a t).or (if r.accountId = a then some r else none) :=
  Statements.row_insertIgnore r

theorem lockOf_takeOver (a : Text) :
    lockOf a (Statements.update (expired accountId now)
        (fun r => { r with owner := owner, expiresAt := now + ttlMs }) t) =
      (lockOf a t).map fun r => if expired accountId now r then
        { r with owner := owner, expiresAt := now + ttlMs } else r :=
  Statements.row_update fun _ => rfl

theorem lockOf_refresh (a : Text) :
    lockOf a (Statements.update (ownedBy accountId owner)
        (fun r => { r with expiresAt := now + ttlMs }) t) =
      (lockOf a t).map fun r => if ownedBy accountId owner r then
        { r with expiresAt := now + ttlMs } else r :=
  Statements.row_update fun _ => rfl

theorem expired_iff :
    expired accountId now r = true ↔ r.accountId = accountId ∧ r.expiresAt ≤ now := by
  simp [expired]

theorem ownedBy_iff :
    ownedBy accountId owner r = true ↔ r.accountId = accountId ∧ r.owner = owner := by
  simp [ownedBy]

theorem leases_other {f : Text → Text → Option Nat} {a o a' o' : Text} {v : Option Nat} {e : Nat}
    (h : (if a' = a ∧ o' = o then v else f a' o') = some e) :
    (a' = a ∧ o' = o ∧ v = some e) ∨ f a' o' = some e := by
  split at h
  · rename_i heq
    exact .inl ⟨heq.1, heq.2, h⟩
  · exact .inr h

theorem lockOf_passed {f : LockRow → LockRow} {a : Text}
    (h : lockOf a t = some r) (hp : p r = false) :
    ((lockOf a t).map fun r => if p r then f r else r) = some r := by
  rw [h, Option.map_some, hp]
  rfl

variable (ht : (t.map LockRow.accountId).Nodup)
include ht

theorem changed_iff (hp : ∀ r, p r = true → r.accountId = accountId) :
    t.countP p = 1 ↔ ∃ r, lockOf accountId t = some r ∧ p r = true := by
  rw [lockOf, ← Statements.changes_pos ht hp]
  have := Statements.changes_le_one ht hp
  omega

theorem exec_keyed (c : Call) : ((c.exec ttlMs t).1.map LockRow.accountId).Nodup := by
  cases c with
  | acquire a o now retried =>
    cases retried with
    | false => exact Statements.nodup_insertIgnore ht
    | true => exact Statements.nodup_update (fun _ => rfl) ht
  | refresh a o now => exact Statements.nodup_update (fun _ => rfl) ht
  | release a o => exact Statements.nodup_delete ht
  | sweepExpired now graceMs => exact Statements.nodup_delete ht

theorem lockOf_delete {a : Text} (h : lockOf a t = some r)
    (hp : p r = false) : lockOf a (Statements.delete p t) = some r := by
  have hrow := Statements.row_delete (p := p) (k := a) ht
  rw [lockOf] at h ⊢
  rw [hrow, h]
  simp [Option.filter, hp]

theorem acquire_backed (a o : Text) (retried : Bool) (hnow : now ≤ time)
    (h : Backed time t lease) :
    Backed time ((Call.acquire a o now retried).exec ttlMs t).1
      ((Call.acquire a o now retried).leases ttlMs ((Call.acquire a o now retried).exec ttlMs t).2
        lease) := by
  intro a' o' e hlease hlt
  cases retried with
  | false =>
    change lockOf a' (Statements.insertIgnore LockRow.accountId _ t) = _
    rw [lockOf_insert]
    rw [Call.exec] at hlease
    cases hrow : lockOf a t with
    | some r =>
      simp only [hrow, Option.isSome_some, if_true, Call.leases] at hlease
      rw [h a' o' e hlease hlt]
      rfl
    | none =>
      simp only [hrow, Option.isSome_none, Bool.false_eq_true, if_false, Call.leases] at hlease
      obtain ⟨rfl, rfl, heq⟩ | hold := leases_other hlease
      · cases heq
        rw [hrow, if_pos rfl]
        rfl
      · rw [h a' o' e hold hlt]
        rfl
  | true =>
    change lockOf a' (Statements.update (expired a now) _ t) = _
    rw [lockOf_takeOver]
    -- A row whose lease has not expired is not taken over.
    have hkeep : lease a' o' = some e →
        ((lockOf a' t).map fun r => if expired a now r then
          { r with owner := o, expiresAt := now + ttlMs } else r) = some ⟨a', o', e⟩ := by
      intro hold
      refine lockOf_passed (h a' o' e hold hlt) ?_
      rw [← Bool.not_eq_true, expired_iff]
      rintro ⟨-, hle⟩
      dsimp only at hle
      omega
    rw [Call.exec] at hlease
    cases hgranted : decide (t.countP (expired a now) = 1) with
    | false =>
      rw [hgranted] at hlease
      exact hkeep hlease
    | true =>
      rw [hgranted] at hlease
      dsimp only [Call.leases] at hlease
      obtain ⟨rfl, rfl, heq⟩ | hold := leases_other hlease
      · cases heq
        obtain ⟨r, hr, hexpired⟩ := (changed_iff ht fun r hr => (expired_iff.mp hr).1).mp
          (of_decide_eq_true hgranted)
        rw [hr, Option.map_some, if_pos hexpired, (Statements.row_mem hr).2.symm]
      · exact hkeep hold

theorem refresh_backed (a o : Text) (h : Backed time t lease) :
    Backed time ((Call.refresh a o now).exec ttlMs t).1
      ((Call.refresh a o now).leases ttlMs ((Call.refresh a o now).exec ttlMs t).2 lease) := by
  intro a' o' e hlease hlt
  change lockOf a' (Statements.update (ownedBy a o) _ t) = _
  rw [lockOf_refresh]
  rw [Call.exec] at hlease
  have hiff : t.countP (ownedBy a o) = 1 ↔ ∃ r, lockOf a t = some r ∧ ownedBy a o r = true :=
    changed_iff ht fun r hr => (ownedBy_iff.mp hr).1
  cases hgranted : decide (t.countP (ownedBy a o) = 1) with
  | false =>
    rw [hgranted] at hlease
    have hrow := h a' o' e hlease hlt
    refine lockOf_passed hrow ?_
    rw [← Bool.not_eq_true]
    intro howned
    obtain ⟨rfl, -⟩ := ownedBy_iff.mp howned
    exact of_decide_eq_false hgranted (hiff.mpr ⟨_, hrow, howned⟩)
  | true =>
    rw [hgranted] at hlease
    obtain ⟨r, hr, howned⟩ := hiff.mp (of_decide_eq_true hgranted)
    dsimp only [Call.leases] at hlease
    split at hlease
    · rename_i heq
      obtain ⟨rfl, rfl⟩ := heq
      cases hlease
      obtain ⟨hacc, hown⟩ := ownedBy_iff.mp howned
      rw [hr, Option.map_some, if_pos howned, ← hacc, ← hown]
    · rename_i hne
      have hrow := h a' o' e hlease hlt
      refine lockOf_passed hrow ?_
      rw [← Bool.not_eq_true, ownedBy_iff]
      exact hne

theorem exec_backed (c : Call) (hnow : c.now ≤ time) (h : Backed time t lease) :
    Backed time (c.exec ttlMs t).1 (c.leases ttlMs (c.exec ttlMs t).2 lease) := by
  cases c with
  | acquire a o now retried => exact acquire_backed ht a o retried hnow h
  | refresh a o now => exact refresh_backed ht a o h
  | release a o =>
    intro a' o' e hlease hlt
    dsimp only [Call.exec, Call.leases] at hlease
    split at hlease
    · cases hlease
    · rename_i hne
      refine lockOf_delete ht (h a' o' e hlease hlt) ?_
      rw [← Bool.not_eq_true, ownedBy_iff]
      exact hne
  | sweepExpired now graceMs =>
    intro a' o' e hlease hlt
    refine lockOf_delete ht (h a' o' e hlease hlt) ?_
    rw [decide_eq_false_iff_not]
    have : now ≤ time := hnow
    dsimp only
    omega

def Lost (a o : Text) (t : Locks) : Prop := ∀ r, lockOf a t = some r → r.owner ≠ o

omit ht in
theorem lost_of_some (h : lockOf a t = some r) (hne : r.owner ≠ o) :
    Lost a o t := by
  intro r' hr'
  rw [h] at hr'
  cases hr'
  exact hne

theorem exec_lost (c : Call) (h : Lost a o t)
    (hno : ⟨a, o, true, true⟩ ∉ c.answered (c.exec ttlMs t).2) : Lost a o (c.exec ttlMs t).1 := by
  intro r' hr' howner
  cases c with
  | acquire a₀ o₀ now retried =>
    cases retried with
    | false =>
      change lockOf a (Statements.insertIgnore LockRow.accountId _ t) = _ at hr'
      rw [lockOf_insert] at hr'
      cases hrow : lockOf a t with
      | some r =>
        rw [hrow] at hr'
        exact h r' (hrow.trans hr') howner
      | none =>
        rw [hrow, Option.none_or] at hr'
        split at hr'
        · rename_i heq
          dsimp only at heq
          cases hr'
          apply hno
          rw [← heq] at hrow
          rw [Call.exec, hrow, ← heq, ← howner]
          exact List.mem_singleton_self _
        · cases hr'
    | true =>
      change lockOf a (Statements.update (expired a₀ now) _ t) = _ at hr'
      rw [lockOf_takeOver, Option.map_eq_some_iff] at hr'
      obtain ⟨r, hr, hr'⟩ := hr'
      split at hr'
      · rename_i hexpired
        cases hr'
        have hacc := (expired_iff.mp hexpired).1
        rw [(Statements.row_mem hr).2] at hacc
        have hone : t.countP (expired a₀ now) = 1 :=
          (changed_iff ht fun r hr => (expired_iff.mp hr).1).mpr ⟨r, hacc ▸ hr, hexpired⟩
        apply hno
        rw [Call.exec, hone, hacc, ← howner]
        exact List.mem_singleton_self _
      · cases hr'
        exact h r' hr howner
  | refresh a₀ o₀ now =>
    change lockOf a (Statements.update (ownedBy a₀ o₀) _ t) = _ at hr'
    rw [lockOf_refresh, Option.map_eq_some_iff] at hr'
    obtain ⟨r, hr, hr'⟩ := hr'
    refine h r hr ?_
    split at hr'
    · cases hr'
      exact howner
    · cases hr'
      exact howner
  | release a₀ o₀ =>
    change lockOf a (Statements.delete (ownedBy a₀ o₀) t) = _ at hr'
    rw [lockOf, Statements.row_delete ht, Option.filter_eq_some_iff] at hr'
    exact h r' hr'.1 howner
  | sweepExpired now graceMs =>
    change lockOf a (Statements.delete _ t) = _ at hr'
    rw [lockOf, Statements.row_delete ht, Option.filter_eq_some_iff] at hr'
    exact h r' hr'.1 howner

theorem exec_granted {a p : Text} (c : Call)
    (h : ⟨a, p, true, true⟩ ∈ c.answered (c.exec ttlMs t).2) :
    ∃ r, lockOf a (c.exec ttlMs t).1 = some r ∧ r.owner = p := by
  cases c with
  | acquire a₀ o₀ now retried =>
    cases retried with
    | false =>
      change ∃ r, lockOf a (Statements.insertIgnore LockRow.accountId _ t) = some r ∧ r.owner = p
      rw [Call.exec] at h
      cases hrow : lockOf a₀ t with
      | some r =>
        rw [hrow] at h
        cases h
      | none =>
        rw [hrow] at h
        cases List.mem_singleton.mp h
        refine ⟨⟨a, p, now + ttlMs⟩, ?_, rfl⟩
        rw [lockOf_insert, hrow, if_pos rfl]
        rfl
    | true =>
      change ∃ r, lockOf a (Statements.update (expired a₀ now) _ t) = some r ∧ r.owner = p
      rw [Call.exec] at h
      cases hgranted : decide (t.countP (expired a₀ now) = 1) with
      | false =>
        rw [hgranted] at h
        cases List.mem_singleton.mp h
      | true =>
        rw [hgranted] at h
        cases List.mem_singleton.mp h
        obtain ⟨r, hr, hexpired⟩ := (changed_iff ht fun r hr => (expired_iff.mp hr).1).mp
          (of_decide_eq_true hgranted)
        refine ⟨{ r with owner := p, expiresAt := now + ttlMs }, ?_, rfl⟩
        rw [lockOf_takeOver, hr, Option.map_some, if_pos hexpired]
  | refresh a₀ o₀ now => cases List.mem_singleton.mp h
  | release a₀ o₀ => cases h
  | sweepExpired now graceMs => cases h

theorem exec_refused (c : Call) (h : Lost a o t) :
    ⟨a, o, false, true⟩ ∉ c.answered (c.exec ttlMs t).2 := by
  intro hmem
  cases c with
  | acquire a₀ o₀ now retried =>
    revert hmem
    generalize (Call.acquire a₀ o₀ now retried).exec ttlMs t = out
    obtain ⟨-, out⟩ := out
    intro hmem
    cases out with
    | answer b => cases List.mem_singleton.mp hmem
    | again c => cases hmem
    | done => cases hmem
  | refresh a₀ o₀ now =>
    rw [Call.exec] at hmem
    cases hgranted : decide (t.countP (ownedBy a₀ o₀) = 1) with
    | false =>
      rw [hgranted] at hmem
      cases List.mem_singleton.mp hmem
    | true =>
      rw [hgranted] at hmem
      cases List.mem_singleton.mp hmem
      obtain ⟨r, hr, howned⟩ := (changed_iff ht fun r hr => (ownedBy_iff.mp hr).1).mp
        (of_decide_eq_true hgranted)
      exact h r hr (ownedBy_iff.mp howned).2
  | release a₀ o₀ => cases hmem
  | sweepExpired now graceMs => cases hmem

end

structure Consistent (w : World) : Prop where
  keyed : (w.locks.map LockRow.accountId).Nodup
  read : ∀ c ∈ w.calls, c.now ≤ w.time
  backed : Backed w.time w.locks w.lease
  /-- An owner whose account another was granted after its own last grant. -/
  lost : ∀ (before after : List Answer) (a o p : Text),
    w.answers = before ++ ⟨a, p, true, true⟩ :: after → o ≠ p → ⟨a, o, true, true⟩ ∉ after →
      Lost a o w.locks ∧ ⟨a, o, false, true⟩ ∉ after

theorem Call.answered_le_one (c : Call) (out : Outcome) :
    c.answered out = [] ∨ ∃ x, c.answered out = [x] := by
  cases c <;> cases out <;> simp [Call.answered]

section

variable {ttlMs : Nat} {w w' : World}

theorem calls_read {i : Nat} {c : Call} (hc : w.calls[i]? = some c)
    (h : ∀ c ∈ w.calls, c.now ≤ w.time) :
    ∀ c' ∈ (match (c.exec ttlMs w.locks).2 with
      | .again c' => w.calls.set i c'
      | _ => w.calls.eraseIdx i), c'.now ≤ w.time := by
  have hnow : c.now ≤ w.time := h c (List.mem_of_getElem? hc)
  intro c' hc'
  split at hc'
  · rename_i c'' hagain
    obtain hc' | rfl := List.mem_or_eq_of_mem_set hc'
    · exact h c' hc'
    · cases c with
      | acquire a o now retried =>
        cases retried with
        | false =>
          rw [Call.exec] at hagain
          dsimp only at hagain
          split at hagain
          · cases hagain
            exact hnow
          · cases hagain
        | true => cases hagain
      | refresh a o now => cases hagain
      | release a o => cases hagain
      | sweepExpired now graceMs => cases hagain
  · exact h c' (List.mem_of_mem_eraseIdx hc')

theorem statement_consistent {i : Nat} (h : Consistent w)
    (hw : step ttlMs (.statement i) w = some w') : Consistent w' := by
  obtain ⟨c, hc, rfl⟩ := Option.map_eq_some_iff.mp hw
  have hnow : c.now ≤ w.time := h.read c (List.mem_of_getElem? hc)
  refine ⟨exec_keyed h.keyed c, calls_read hc h.read, exec_backed h.keyed c hnow h.backed, ?_⟩
  intro before after a o p hans hne hno
  dsimp only at hans ⊢
  obtain hnone | ⟨x, hone⟩ := c.answered_le_one (c.exec ttlMs w.locks).2
  · rw [hnone, List.append_nil] at hans
    obtain ⟨hlost, hrefused⟩ := h.lost before after a o p hans hne hno
    refine ⟨exec_lost h.keyed c hlost ?_, hrefused⟩
    rw [hnone]
    exact List.not_mem_nil
  · rw [hone] at hans
    obtain rfl | ⟨after', y, rfl⟩ := List.eq_nil_or_concat' after
    · -- The grant is the answer of this statement.
      obtain ⟨-, hx⟩ := List.append_inj' hans rfl
      cases hx
      obtain ⟨r, hr, hrow⟩ := exec_granted h.keyed (p := p) (a := a) c (by
        rw [hone]
        exact List.mem_singleton_self _)
      refine ⟨lost_of_some hr ?_, List.not_mem_nil⟩
      rw [hrow]
      exact hne.symm
    · rw [← List.cons_append, ← List.append_assoc] at hans
      obtain ⟨hbefore, hx⟩ := List.append_inj' hans rfl
      cases hx
      rw [List.mem_append, not_or] at hno
      obtain ⟨hlost, hrefused⟩ := h.lost before after' a o p hbefore hne hno.1
      rw [← hone] at hno ⊢
      refine ⟨exec_lost h.keyed c hlost hno.2, ?_⟩
      rw [List.mem_append, not_or]
      exact ⟨hrefused, exec_refused h.keyed c hlost⟩

theorem step_consistent {m : Move} (h : Consistent w) (hw : step ttlMs m w = some w') :
    Consistent w' := by
  cases m with
  | tick ms =>
    cases hw
    refine ⟨h.keyed, fun c hc => (h.read c hc).trans (Nat.le_add_right _ _), ?_, h.lost⟩
    intro a o e hlease hlt
    exact h.backed a o e hlease ((Nat.le_add_right _ _).trans_lt hlt)
  | statement i => exact statement_consistent h hw
  | acquire a o =>
    cases hw
    refine ⟨h.keyed, ?_, h.backed, h.lost⟩
    exact List.forall_mem_append.mpr ⟨h.read, by simp [Call.now]⟩
  | refresh a o =>
    cases hw
    refine ⟨h.keyed, ?_, h.backed, h.lost⟩
    exact List.forall_mem_append.mpr ⟨h.read, by simp [Call.now]⟩
  | release a o =>
    cases hw
    refine ⟨h.keyed, ?_, h.backed, h.lost⟩
    exact List.forall_mem_append.mpr ⟨h.read, by simp [Call.now]⟩
  | sweepExpired graceMs =>
    cases hw
    refine ⟨h.keyed, ?_, h.backed, h.lost⟩
    exact List.forall_mem_append.mpr ⟨h.read, by simp [Call.now]⟩

theorem consistent_start : Consistent {} where
  keyed := List.nodup_nil
  read := by simp
  backed := by simp [Backed]
  lost := by simp

theorem run_consistent {ms : List Move} (h : Schedule.run (step ttlMs) ms {} = some w) :
    Consistent w :=
  have hall : Schedule.Always (step ttlMs) (fun _ _ => True) ms {} :=
    Schedule.always_of_all (fun _ _ _ => trivial) _
  hall.invariant consistent_start (fun _ _ _ hw _ hstep => step_consistent hw hstep) h

/-- However the statements of the nodes come: no two owners hold leases on an account that have
not expired, an owner is refused its refreshes from the moment another is granted the account
until it is granted it again itself, and the release of an owner leaves the row of another. -/
theorem maildrop_exclusive {ms : List Move} (h : Schedule.run (step ttlMs) ms {} = some w) :
    (∀ a o o' e e', w.lease a o = some e → w.time < e → w.lease a o' = some e' → w.time < e' →
      o = o') ∧
    (∀ before after a o p, w.answers = before ++ ⟨a, p, true, true⟩ :: after → o ≠ p →
      ⟨a, o, true, true⟩ ∉ after → ⟨a, o, false, true⟩ ∉ after) ∧
    ∀ i a o w' r, w.calls[i]? = some (.release a o) → step ttlMs (.statement i) w = some w' →
      lockOf a w.locks = some r → r.owner ≠ o → lockOf a w'.locks = some r := by
  have hw := run_consistent h
  refine ⟨?_, ?_, ?_⟩
  · intro a o o' e e' hlease hlt hlease' hlt'
    have hrow := hw.backed a o e hlease hlt
    rw [hw.backed a o' e' hlease' hlt'] at hrow
    cases hrow
    rfl
  · intro before after a o p hans hne hno
    exact (hw.lost before after a o p hans hne hno).2
  · intro i a o w' r hcall hstep hr hne
    obtain ⟨c, hc, rfl⟩ := Option.map_eq_some_iff.mp hstep
    rw [hcall] at hc
    cases hc
    refine lockOf_delete hw.keyed hr ?_
    rw [← Bool.not_eq_true, ownedBy_iff]
    exact fun howned => hne howned.2

end

/-- The lease of one owner runs out and another takes it over; then the first comes back. -/
def takeOver : List Move :=
  [.acquire ['a'] ['x'], .statement 0, .tick 150, .acquire ['a'] ['y'], .statement 0, .statement 0,
    .refresh ['a'] ['x'], .statement 0, .release ['a'] ['x']]

theorem maildrop_exclusive_takeOver :
    ∃ w w', Schedule.run (step 100) takeOver {} = some w ∧
      w.answers = [⟨['a'], ['x'], true, true⟩, ⟨['a'], ['y'], true, true⟩,
        ⟨['a'], ['x'], false, false⟩] ∧
      (∀ o e, w.lease ['a'] o = some e → w.time < e → o = ['y']) ∧
      ⟨['a'], ['x'], false, true⟩ ∉ w.answers.drop 2 ∧
      step 100 (.statement 0) w = some w' ∧ lockOf ['a'] w'.locks = some ⟨['a'], ['y'], 250⟩ := by
  have hrun : ((Schedule.run (step 100) takeOver {}).bind fun w =>
      (step 100 (.statement 0) w).map fun _ =>
        ((w.time, w.lease ['a'] ['y'], w.locks), w.calls, w.answers)) =
      some ((150, some 250, [⟨['a'], ['y'], 250⟩]), [.release ['a'] ['x']],
        [⟨['a'], ['x'], true, true⟩, ⟨['a'], ['y'], true, true⟩,
          ⟨['a'], ['x'], false, false⟩]) := by
    decide +kernel
  obtain ⟨w, hw, hrun⟩ := Option.bind_eq_some_iff.mp hrun
  obtain ⟨w', hw', hrun⟩ := Option.map_eq_some_iff.mp hrun
  simp only [Prod.mk.injEq] at hrun
  obtain ⟨⟨htime, hlease, hlocks⟩, hcalls, hans⟩ := hrun
  obtain ⟨hone, hrefused, hrelease⟩ := maildrop_exclusive hw
  refine ⟨w, w', hw, hans, ?_, ?_, hw', ?_⟩
  · intro o e ho hlt
    exact hone _ _ _ e 250 ho hlt hlease (by omega)
  · rw [hans]
    exact hrefused [⟨['a'], ['x'], true, true⟩] [⟨['a'], ['x'], false, false⟩] _ _ _ hans
      (by decide) (by decide)
  · exact hrelease 0 ['a'] ['x'] w' ⟨['a'], ['y'], 250⟩ (by rw [hcalls]; rfl) hw'
      (by rw [hlocks]; decide) (by decide)

end Ionosphere.Store.MaildropLock
