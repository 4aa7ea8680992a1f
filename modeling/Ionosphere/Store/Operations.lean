import Ionosphere.Store.Transfer

/-! The operations of the store as calls: each one tries its attempt until a batch is
accepted, at most ten times. -/
namespace Ionosphere.Store

open Ionosphere.Js Ionosphere.Lib

inductive Op where
  | createMailbox (parentId : Id) (name : Text) (role : Option Text)
  | deleteMailbox (mailboxId : Id)
  | reapMailbox (mailboxId : Id)
  | setSubscribed (mailboxId : Id) (subscribed : Bool)
  | renameMailbox (mailboxId newParentId : Id) (newName : Text)
  | appendMessages (inputs : List AppendInput)
  | setKeywords (messageId : Id) (add remove : List Text)
  | setKeywordsBatch (messageIds : List Id) (add remove : List Text) (replace : Bool)
  | setDeleted (mailboxId : Id) (uids : List Nat) (deleted : Bool)
  | expunge (mailboxId : Id) (uids : Option (List Nat))
  | removeMessageFromMailbox (messageId mailboxId : Id)
  | copyOrMoveMessages (messageIds : List Id) (fromId toId : Id) (op : TransferOp)
  | destroyMessage (messageId : Id)
  | moveMessage (messageId fromId toId : Id)
  | copyMessage (messageId toId : Id)

def Reads.stmts {α : Type} (attempt : Reads (Plan α)) : Reads (Plan Unit) := do
  let plan ← attempt
  pure { stmts := plan.stmts, result := () }

theorem on_stmts {α : Type} {attempt : Reads (Plan α)} {db : Db} {plan : Plan Unit} :
    attempt.stmts.on db = .ok plan ↔
      ∃ p : Plan α, attempt.on db = .ok p ∧ plan = { stmts := p.stmts, result := () } := by
  rw [Reads.stmts, Reads.on_bind]
  cases attempt.on db with
  | error err => simp [Except.bind]
  | ok p => simp [Except.bind, eq_comm]

section

variable (u : CaseMap)

/-- One attempt of an operation. An empty list of messages is answered without one. -/
def Op.attempt : Op → Env → Reads (Plan Unit)
  | createMailbox parentId name role, env => (createMailboxAttempt parentId name role env).stmts
  | deleteMailbox mailboxId, env => deleteMailboxAttempt mailboxId env
  | reapMailbox mailboxId, env => (reapMailboxAttempt mailboxId env).stmts
  | setSubscribed mailboxId subscribed, env => setSubscribedAttempt mailboxId subscribed env
  | renameMailbox mailboxId newParentId newName, env =>
    renameMailboxAttempt mailboxId newParentId newName env
  | appendMessages [], _ => pure { result := () }
  | appendMessages (input :: inputs), env => (appendMessagesAttempt u (input :: inputs) env).stmts
  | setKeywords messageId add remove, env => setKeywordsAttempt u messageId add remove env
  | setKeywordsBatch messageIds add remove replace, env =>
    if messageIds = [] then pure { result := () }
    else (setKeywordsBatchAttempt u messageIds add remove replace env).stmts
  | setDeleted mailboxId uids deleted, env => setDeletedAttempt mailboxId uids deleted env
  | expunge mailboxId uids, env => (expungeAttempt mailboxId uids env).stmts
  | removeMessageFromMailbox messageId mailboxId, env =>
    (removeMembershipAttempt messageId mailboxId env).stmts
  | copyOrMoveMessages messageIds fromId toId op, env =>
    if messageIds = [] then pure { result := () }
    else (copyOrMoveBatchAttempt messageIds fromId toId op env).stmts
  | destroyMessage messageId, env => destroyMessageAttempt messageId env
  | moveMessage messageId fromId toId, env => (moveMessageAttempt messageId fromId toId env).stmts
  | copyMessage messageId toId, env => (copyMessageAttempt messageId toId env).stmts

/-- A call of an operation, with what its attempts draw. -/
structure Invocation where
  op : Op
  draws : Nat → Env

def perform (c : Invocation) (db : Db) : Db :=
  (withRetry (c.op.attempt u) maxRetryAttempts c.draws db).2

def performAll (calls : List Invocation) (db : Db) : Db :=
  calls.foldl (fun db c => perform u c db) db

def Commits (op : Op) (env : Env) (db db' : Db) : Prop :=
  ∃ plan, (op.attempt u env).on db = .ok plan ∧ batch plan.stmts db = some db'

theorem perform_cases (c : Invocation) (db : Db) :
    perform u c db = db ∨ ∃ i, Commits u c.op (c.draws i) db (perform u c db) := by
  rcases withRetry_cases (c.op.attempt u) maxRetryAttempts c.draws db with h | ⟨i, plan, hon, hb⟩
  · exact .inl h
  · exact .inr ⟨i, plan, hon, hb⟩

end

/-- `createAccount`: an active account with an empty INBOX. -/
def newAccount (accountId mailboxId : Id) (now quotaBytes : Nat) : Db :=
  let uidvalidity := max (now / 1000) 1
  { account := { id := accountId, uidvalidityLast := uidvalidity, quotaBytes := quotaBytes }
    mailboxes :=
      [{ id := mailboxId, name := "INBOX".toList, role := some "inbox".toList
         uidvalidity := uidvalidity }] }

end Ionosphere.Store
