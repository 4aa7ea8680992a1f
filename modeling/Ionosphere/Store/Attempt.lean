import Ionosphere.Store.Schema

/-! An attempt of a store operation: reads, one after the other, and then at most one
batch. Nothing holds the database still between two reads, so an attempt is kept as
the tree of what it does with each answer. -/
namespace Ionosphere.Store

open Ionosphere.Js Ionosphere.Lib

inductive StoreError where
  | store (message : Text)
  | quota (message : Text)
  /-- `StoreConflictError`, after the last attempt. -/
  | conflict
  deriving DecidableEq

/-- What a call draws from outside: the clock and `ulid()`. -/
structure Env where
  now : Nat := 0
  ulid : Nat → Id

inductive Reads (α : Type) where
  | done (a : α)
  | throw (err : StoreError)
  | query (k : Db → Reads α)

namespace Reads

variable {α β : Type} {db : Db}

def bind : Reads α → (α → Reads β) → Reads β
  | done a, f => f a
  | throw err, _ => throw err
  | query k, f => query fun db => (k db).bind f

instance : Monad Reads where
  pure := done
  bind := bind

def on (db : Db) : Reads α → Except StoreError α
  | done a => .ok a
  | throw err => .error err
  | query k => (k db).on db

@[simp] theorem on_done (db : Db) (a : α) : (done a).on db = .ok a := rfl

@[simp] theorem on_pure (db : Db) (a : α) : (pure a : Reads α).on db = .ok a := rfl

@[simp] theorem on_throw (db : Db) (err : StoreError) : (throw err : Reads α).on db = .error err := rfl

@[simp] theorem on_query (db : Db) (k : Db → Reads α) : (query k).on db = (k db).on db := rfl

@[simp] theorem on_bind (db : Db) (x : Reads α) (f : α → Reads β) :
    (x >>= f).on db = (x.on db).bind fun a => (f a).on db := by
  change (x.bind f).on db = _
  induction x with
  | done a => rfl
  | throw err => rfl
  | query k ih => exact ih db

/-- One `SELECT`. -/
def select (read : Db → α) : Reads α := query fun db => done (read db)

@[simp] theorem on_select (db : Db) (read : Db → α) : (select read).on db = .ok (read db) := rfl

theorem on_select_bind {read : Db → α} {f : α → Reads β} :
    (select read >>= f).on db = (f (read db)).on db := rfl

/-- A call that answers has answered at each of its steps. -/
theorem of_bind {x : Reads α} {f : α → Reads β} {b : β} (h : (x >>= f).on db = .ok b) :
    ∃ a, x.on db = .ok a ∧ (f a).on db = .ok b := by
  rw [on_bind] at h
  cases hx : x.on db with
  | error err => simp [hx, Except.bind] at h
  | ok a => exact ⟨a, rfl, by simpa only [hx, Except.bind] using h⟩

/-- A row that must be there. -/
theorem of_select {read : Db → Option α} {f : Option α → Reads β} {b : β}
    {err : StoreError} (h : (select read >>= f).on db = .ok b) (hnone : f none = throw err) :
    ∃ a, read db = some a ∧ (f (some a)).on db = .ok b := by
  rw [on_select_bind] at h
  cases ha : read db with
  | none => simp [ha, hnone] at h
  | some a => exact ⟨a, rfl, ha ▸ h⟩

/-- `throw` unless the condition holds. -/
def check (ok : Bool) (err : StoreError) : Reads Unit := if ok then done () else throw err

theorem on_check {ok : Bool} {err : StoreError} {f : Unit → Reads α} {a : α} :
    (check ok err >>= f).on db = .ok a ↔ ok = true ∧ (f ()).on db = .ok a := by
  cases ok
  · simp [check, Except.bind]
  · simp [check, Except.bind]

end Reads

def maxParamsPerStatement : Nat := 100

def rowsPerStatement (columnCount : Nat) : Nat := max 1 (maxParamsPerStatement / columnCount)

/-- The ids or uids of one statement besides `fixed` other parameters. -/
def listSize (fixed : Nat) : Nat := rowsPerStatement 1 - fixed

def readParts {ι ρ : Type} (read : List ι → Db → List ρ) : List (List ι) → Reads (List ρ)
  | [] => pure []
  | part :: parts => do
    let rows ← Reads.select (read part)
    let more ← readParts read parts
    pure (rows ++ more)

/-- A `SELECT … IN (…)`, one query for each part of the list. -/
def queryInChunks {ι ρ : Type} (fixed : Nat) (items : List ι) (read : List ι → Db → List ρ) :
    Reads (List ρ) :=
  readParts read (Table.chunk (max 1 (maxParamsPerStatement - fixed)) items)

theorem on_readParts {ι ρ : Type} (db : Db) (read : List ι → Db → List ρ) (parts : List (List ι)) :
    (readParts read parts).on db = .ok (parts.flatMap fun part => read part db) := by
  induction parts with
  | nil => rfl
  | cons part parts ih => simp [readParts, Except.bind, ih]

/-- What such a query gives when nothing changes in between. -/
def readAll {ι ρ : Type} (fixed : Nat) (items : List ι) (read : List ι → Db → List ρ) (db : Db) :
    List ρ :=
  (Table.chunk (max 1 (maxParamsPerStatement - fixed)) items).flatMap fun part => read part db

@[simp] theorem on_queryInChunks {ι ρ : Type} (db : Db) (fixed : Nat) (items : List ι)
    (read : List ι → Db → List ρ) :
    (queryInChunks fixed items read).on db = .ok (readAll fixed items read db) :=
  on_readParts db read _

theorem on_chunks_bind {ι ρ α : Type} {db : Db} {fixed : Nat} {items : List ι}
    {read : List ι → Db → List ρ} {f : List ρ → Reads α} :
    (queryInChunks fixed items read >>= f).on db = (f (readAll fixed items read db)).on db := by
  rw [Reads.on_bind, on_queryInChunks]
  rfl

structure AccountSnapshot where
  id : Id
  modseq : Nat
  quotaBytes : Nat
  usedBytes : Int
  uidvalidityLast : Nat

def AccountRow.snapshot (a : AccountRow) : AccountSnapshot :=
  ⟨a.id, a.modseq, a.quotaBytes, a.usedBytes, a.uidvalidityLast⟩

def mustGetAccount : Reads AccountSnapshot := do
  let account ← Reads.select (·.account)
  Reads.check account.active (.store ("account not active: ".toList ++ account.id))
  pure account.snapshot

theorem on_mustGetAccount {α : Type} {db : Db} {f : AccountSnapshot → Reads α} {a : α} :
    (mustGetAccount >>= f).on db = .ok a ↔
      db.account.active = true ∧ (f db.account.snapshot).on db = .ok a := by
  have hon : (mustGetAccount >>= f).on db =
      (Reads.check db.account.active (.store ("account not active: ".toList ++ db.account.id)) >>=
        fun _ => f db.account.snapshot).on db := by
    cases h : db.account.active <;> simp only [mustGetAccount, Reads.check, Reads.on_bind,
      Reads.on_select, Except.bind, h] <;> rfl
  rw [hon, Reads.on_check]

/-- What an attempt ends with: the statements of its batch, none when it needs no
batch, and its result. -/
structure Plan (α : Type) where
  stmts : List Stmt := []
  result : α

/-- One attempt with nothing in between. A refused batch is `none`. -/
def attemptOnce {α : Type} (attempt : Reads (Plan α)) (db : Db) :
    Option (Except StoreError α × Db) :=
  match attempt.on db with
  | .error err => some (.error err, db)
  | .ok plan => (batch plan.stmts db).map fun db' => (.ok plan.result, db')

def maxRetryAttempts : Nat := 10

/-- `withRetry`: again with the next draws while the batch is refused. -/
def withRetry {α : Type} (attempt : Env → Reads (Plan α)) :
    Nat → (Nat → Env) → Db → Except StoreError α × Db
  | 0, _, db => (.error .conflict, db)
  | n + 1, draws, db =>
    match attemptOnce (attempt (draws 0)) db with
    | some r => r
    | none => withRetry attempt n (fun i => draws (i + 1)) db

theorem withRetry_cases {α : Type} (attempt : Env → Reads (Plan α)) (n : Nat) (draws : Nat → Env)
    (db : Db) :
    (withRetry attempt n draws db).2 = db ∨
      ∃ i plan, (attempt (draws i)).on db = .ok plan ∧
        batch plan.stmts db = some (withRetry attempt n draws db).2 := by
  induction n generalizing draws with
  | zero => exact .inl rfl
  | succ n ih =>
    cases hon : (attempt (draws 0)).on db with
    | error err =>
      left
      simp only [withRetry, attemptOnce, hon]
    | ok plan =>
      cases hbatch : batch plan.stmts db with
      | some db' =>
        refine .inr ⟨0, plan, hon, ?_⟩
        simp only [withRetry, attemptOnce, hon, hbatch, Option.map_some]
      | none =>
        simp only [withRetry, attemptOnce, hon, hbatch, Option.map_none]
        rcases ih fun i => draws (i + 1) with h | ⟨i, plan, h⟩
        · exact .inl h
        · exact .inr ⟨i + 1, plan, h⟩

end Ionosphere.Store
