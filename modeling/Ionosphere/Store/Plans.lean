import Ionosphere.Store.Operations

/-! What an attempt sends when all its reads see one state: the statements of each
operation, with the rows they were made from. -/
namespace Ionosphere.Store

open Ionosphere.Js Ionosphere.Lib

variable {plan : Plan Unit} {mailboxId : Id} {db : Db} {id : Id} {ι ρ : Type}

theorem mem_readAll {fixed : Nat} {items : List ι} {read : List ι → Db → List ρ} {x : ρ}
    (h : x ∈ readAll fixed items read db) : ∃ part, x ∈ read part db := by
  rw [readAll, List.mem_flatMap] at h
  obtain ⟨part, -, hx⟩ := h
  exact ⟨part, hx⟩

theorem mem_readAll_filter [BEq ι] [LawfulBEq ι] (fixed : Nat) (items : List ι)
    (table : Db → List ρ) (p : ρ → Bool) (key : ρ → ι) (db : Db) (x : ρ) :
    x ∈ readAll fixed items (fun part db => (table db).filter fun r => p r && part.contains (key r)) db ↔
      x ∈ table db ∧ p x = true ∧ key x ∈ items := by
  have hflat := Table.flatten_chunk (max 1 (maxParamsPerStatement - fixed)) items
  simp only [readAll, List.mem_flatMap, List.mem_filter, Bool.and_eq_true, List.contains_iff_mem]
  constructor
  · rintro ⟨part, hpart, hx, hp, hkey⟩
    exact ⟨hx, hp, hflat ▸ List.mem_flatten.mpr ⟨part, hpart, hkey⟩⟩
  · rintro ⟨hx, hp, hkey⟩
    rw [← hflat] at hkey
    obtain ⟨part, hpart, hkey⟩ := List.mem_flatten.mp hkey
    exact ⟨part, hpart, hx, hp, hkey⟩

theorem mem_readAll_key [BEq ι] [LawfulBEq ι] (fixed : Nat) (items : List ι)
    (table : Db → List ρ) (key : ρ → ι) (db : Db) (x : ρ) :
    x ∈ readAll fixed items (fun part db => (table db).filter fun r => part.contains (key r)) db ↔
      x ∈ table db ∧ key x ∈ items := by
  have h := mem_readAll_filter fixed items table (fun _ => true) key db x
  simpa using h

theorem activeMailbox_spec {b : MailboxRow} (h : activeMailbox id db = some b) :
    b ∈ db.mailboxes ∧ b.id = id ∧ b.status = .active := by
  have hp := List.find?_some h
  exact ⟨List.mem_of_find?_eq_some h, by simpa using hp⟩

theorem messageOf_spec {m : MessageRow} (h : messageOf db id = some m) :
    m ∈ db.messages ∧ m.id = id := by
  have hp := List.find?_some h
  exact ⟨List.mem_of_find?_eq_some h, by simpa using hp⟩

theorem membershipOf_spec {mailboxId messageId : Id} {r : Membership}
    (h : membershipOf mailboxId messageId db = some r) :
    r ∈ db.memberships ∧ r.mailboxId = mailboxId ∧ r.messageId = messageId := by
  have hp := List.find?_some h
  exact ⟨List.mem_of_find?_eq_some h, by simpa using hp⟩

/-- A row of the table and the message it belongs to. -/
structure JoinedRow (db : Db) (p : Membership × MessageRow) : Prop where
  membership : p.1 ∈ db.memberships
  message : p.2 ∈ db.messages
  same : p.2.id = p.1.messageId

theorem mem_joinMessages {p : Membership → Bool} {x : Membership × MessageRow}
    (h : x ∈ joinMessages p db) : JoinedRow db x ∧ p x.1 = true := by
  rw [joinMessages, List.mem_filterMap] at h
  obtain ⟨r, hr, hx⟩ := h
  rw [Option.map_eq_some_iff] at hx
  obtain ⟨m, hm, rfl⟩ := hx
  rw [List.mem_filter] at hr
  exact ⟨⟨hr.1, (messageOf_spec hm).1, (messageOf_spec hm).2⟩, hr.2⟩

theorem countOf_readAll (ids : List Id) (db : Db) (hid : id ∈ ids) :
    countOf (readAll 0 ids membershipCounts db) id =
      db.memberships.countP fun r => r.messageId = id := by
  have hall : ∀ q ∈ readAll 0 ids membershipCounts db,
      q.2 = db.memberships.countP fun r => r.messageId = q.1 := by
    intro q hq
    obtain ⟨part, hq⟩ := mem_readAll hq
    rw [membershipCounts, List.mem_map] at hq
    obtain ⟨x, -, rfl⟩ := hq
    rfl
  rw [countOf]
  cases hfind : (readAll 0 ids membershipCounts db).find? fun q => q.1 = id with
  | some q =>
    have hq : q.1 = id := by simpa using List.find?_some hfind
    rw [Option.map_some, Option.getD_some, hall q (List.mem_of_find?_eq_some hfind), hq]
  | none =>
    rw [Option.map_none, Option.getD_none, eq_comm, List.countP_eq_zero]
    intro r hr hrid
    have hmem : (id, db.memberships.countP fun r => r.messageId = id) ∈
        readAll 0 ids membershipCounts db := by
      have hflat := Table.flatten_chunk (max 1 (maxParamsPerStatement - 0)) ids
      rw [← hflat, List.mem_flatten] at hid
      obtain ⟨part, hpart, hidpart⟩ := hid
      rw [readAll, List.mem_flatMap]
      refine ⟨part, hpart, List.mem_map.mpr ⟨id, ?_, rfl⟩⟩
      rw [List.mem_eraseDups, List.mem_map]
      have hid : r.messageId = id := by simpa using hrid
      exact ⟨r, List.mem_filter.mpr ⟨hr, by simpa [hid] using hidpart⟩, hid⟩
    have := List.find?_eq_none.mp hfind _ hmem
    simp at this

/-- There is room for `bytes` more. -/
def Fits (db : Db) (bytes : Nat) : Prop :=
  0 < db.account.quotaBytes → db.account.usedBytes + bytes ≤ db.account.quotaBytes

structure KeywordFacts (db : Db) (c : KeywordChange) : Prop where
  message : ∃ m ∈ db.messages, m.id = c.id
  wasSeen : c.wasSeen = hasSeen c.id db
  mailboxIds : c.mailboxIds = mailboxesOf c.id db
  disjoint : ∀ k ∈ c.toAdd, k ∉ c.toRemove

structure GroupFacts (db : Db) (group : List Appended) : Prop where
  distinct : ∀ a ∈ group, (a.uids.map (·.1)).Nodup
  active : ∀ a ∈ group, ∀ p ∈ a.uids, ∃ b, activeMailbox p.1 db = some b
  room : Fits db (group.map (·.input.sizeBytes)).sum

/-- The uids of a group run on from `uidnext`, and `cursor` is behind them. -/
def GroupUids (db : Db) (group : List Appended) (cursor : List (Id × Nat)) : Prop :=
  ∀ a ∈ group, ∀ p ∈ a.uids, ∃ b, b ∈ db.mailboxes ∧ b.id = p.1 ∧ b.status = .active ∧
    b.uidnext ≤ p.2 ∧ p.2 < (Assoc.get cursor p.1).getD 0

def TransferFound (db : Db) (fromId toId : Id) (op : TransferOp) (ids : List Id) : Transfer → Prop
  | .present m source uid => JoinedRow db (source, m) ∧ source.mailboxId = fromId ∧ m.id ∈ ids ∧
      op = .move ∧ ∃ e ∈ db.memberships, e.mailboxId = toId ∧ e.messageId = m.id ∧ e.uid = uid
  | .moved m source _ => JoinedRow db (source, m) ∧ source.mailboxId = fromId ∧ m.id ∈ ids ∧
      op = .move
  | .copied m _ _ => m ∈ db.messages ∧ m.id ∈ ids ∧ op = .copy

structure TransferFacts (db : Db) (fromId toId : Id) (op : TransferOp) (ids : List Id)
    (rows : TransferRows) (transfers : List Transfer) : Prop where
  found : ∀ t ∈ transfers, TransferFound db fromId toId op ids t
  keywords : ∀ k, k ∈ rows.keywords ↔ k ∈ db.keywords ∧ k.messageId ∈ ids
  messages : ∀ m, m ∈ rows.messages ↔ m ∈ db.messages ∧ m.id ∈ ids
  apart : op = .move → fromId ≠ toId
  room : transfers.filterMap (·.copies) ≠ [] →
    Fits db (sizes ((transfers.filterMap (·.copies)).map (·.1)))

/-- What a transfer puts into the target has uids from `first` on and below `cursor`. -/
def TransferUids (first cursor : Nat) (transfers : List Transfer) : Prop :=
  first ≤ cursor ∧ ∀ p ∈ transfers.filterMap (·.enters), first ≤ p.2.2 ∧ p.2.2 < cursor

section

variable (u : CaseMap)

/-- The statements an operation sends in state `db`. -/
inductive Planned (db : Db) (env : Env) : Op → List Stmt → Prop
  | nothing (op : Op) : Planned db env op []
  | create (parentId : Id) (name : Text) (role : Option Text) (uidvalidity : Nat)
      (hfresh : db.account.uidvalidityLast < uidvalidity) :
      Planned db env (.createMailbox parentId name role)
        (createMailboxStmts (db.account.modseq + 1) env.now uidvalidity (env.ulid 0) parentId name role)
  | change (op : Op) (b : MailboxRow) (set : MailboxSet) (kind : ChangeKind)
      (hb : activeMailbox b.id db = some b) (hset : set.highestmodseq = db.account.modseq + 1)
      (huidnext : set.uidnext = none) (hcount : set.totalCount = 0) (hbytes : set.totalBytes = 0)
      (hunread : set.unreadCount = 0)
      (hkind : set.status = none ∧ kind = .updated ∨ set.status = some .deleted ∧ kind = .destroyed) :
      Planned db env op (mailboxStmts (db.account.modseq + 1) env.now b.id set kind)
  | reapEmpty (b : MailboxRow) (hb : deletedMailbox b.id db = some b)
      (hrows : reapRows b.id db = []) :
      Planned db env (.reapMailbox b.id) [Stmt.deleteExpunged b.id, .deleteMailbox b.id]
  | reap (b : MailboxRow) (hb : deletedMailbox b.id db = some b) (hrows : reapRows b.id db ≠ []) :
      Planned db env (.reapMailbox b.id)
        (reapMessages b.id (db.account.modseq + 1) env.now (reapRows b.id db)
            (readAll 0 (rowIds (reapRows b.id db)) membershipCounts db) ++
          [Stmt.deleteExpunged b.id, .deleteMailbox b.id])
  | append (inputs : List AppendInput) (group : List Appended) (cursor : List (Id × Nat))
      (hgroup : GroupFacts db group) (huids : GroupUids db group cursor) :
      Planned db env (.appendMessages inputs)
        (appendStmts u (db.account.modseq + 1) env.now group cursor)
  | setKeywords (id : Id) (add remove : List Text) (c : KeywordChange) (hc : KeywordFacts db c) :
      Planned db env (.setKeywords id add remove) (setKeywordsStmts (db.account.modseq + 1) env.now c)
  | setKeywordsBatch (ids : List Id) (add remove : List Text) (replace : Bool)
      (changes : List KeywordChange) (hids : (changes.map (·.id)).Nodup)
      (hchanges : ∀ c ∈ changes, KeywordFacts db c) :
      Planned db env (.setKeywordsBatch ids add remove replace)
        (setKeywordsBatchStmts (db.account.modseq + 1) env.now changes)
  | setDeleted (mailboxId : Id) (uids : List Nat) (deleted : Bool) (b : MailboxRow)
      (hb : activeMailbox mailboxId db = some b) (targets : List Membership)
      (htargets : ∀ r, r ∈ targets ↔
        r ∈ db.memberships ∧ r.mailboxId = mailboxId ∧ r.uid ∈ uids ∧ r.deleted ≠ deleted) :
      Planned db env (.setDeleted mailboxId uids deleted)
        (setDeletedStmts (db.account.modseq + 1) env.now mailboxId deleted targets)
  | expunge (mailboxId : Id) (uids : Option (List Nat)) (b : MailboxRow)
      (hb : activeMailbox mailboxId db = some b) (rows : List (Membership × MessageRow))
      (hrows : (readExpungeRows mailboxId uids).on db = .ok rows) :
      Planned db env (.expunge mailboxId uids)
        (expungeStmts (db.account.modseq + 1) env.now mailboxId (expungeTargets rows)
          (readAll 0 (rowIds rows) membershipCounts db) (readAll 0 (rowIds rows) seenIds db))
  | remove (r : Membership) (m : MessageRow) (hrow : JoinedRow db (r, m)) :
      Planned db env (.removeMessageFromMailbox r.messageId r.mailboxId)
        (removeMembershipStmts (db.account.modseq + 1) env.now r m
          ((db.memberships.countP fun x => x.messageId = r.messageId) ≤ 1) (hasSeen r.messageId db))
  | transfer (ids : List Id) (fromId toId : Id) (op : TransferOp) (target : MailboxRow)
      (htarget : activeMailbox toId db = some target) (rows : TransferRows)
      (transfers : List Transfer) (cursor : Nat)
      (hfacts : TransferFacts db fromId toId op ids rows transfers)
      (huids : TransferUids target.uidnext cursor transfers) :
      Planned db env (.copyOrMoveMessages ids fromId toId op)
        (transferStmts (db.account.modseq + 1) env.now fromId toId rows ids transfers cursor)
  | destroy (m : MessageRow) (hm : m ∈ db.messages) :
      Planned db env (.destroyMessage m.id)
        (destroyMessageStmts (db.account.modseq + 1) env.now m
          (db.memberships.filter fun r => r.messageId = m.id) (hasSeen m.id db))
  | move (m : MessageRow) (source : Membership) (target : MailboxRow)
      (hrow : JoinedRow db (source, m)) (htarget : activeMailbox target.id db = some target)
      (hnew : membershipOf target.id m.id db = none) :
      Planned db env (.moveMessage m.id source.mailboxId target.id)
        (moveMessageStmts (db.account.modseq + 1) env.now m source target (hasSeen m.id db))
  | copy (m : MessageRow) (target : MailboxRow) (hm : m ∈ db.messages)
      (htarget : activeMailbox target.id db = some target)
      (hnew : membershipOf target.id m.id db = none) :
      Planned db env (.copyMessage m.id target.id)
        (copyMessageStmts (db.account.modseq + 1) env.now m target (hasSeen m.id db))

variable {u} {env : Env} {add remove : List Text} {targets : List Id} {ids : List Id}
  {inputs : List AppendInput}

theorem createMailbox_planned {parentId : Id} {name : Text} {role : Option Text}
    {plan : Plan (Id × Nat)} (h : (createMailboxAttempt parentId name role env).on db = .ok plan) :
    Planned u db env (.createMailbox parentId name role) plan.stmts := by
  rw [createMailboxAttempt, on_mustGetAccount] at h
  obtain ⟨-, h⟩ := h
  obtain ⟨-, -, h⟩ := Reads.of_bind h
  simp only [Reads.on_select_bind, Reads.on_check] at h
  obtain ⟨-, h⟩ := h
  cases h
  exact .create parentId name role _ (Nat.lt_of_succ_le (Nat.le_max_right _ _))

theorem deleteMailbox_planned (h : (deleteMailboxAttempt mailboxId env).on db = .ok plan) :
    Planned u db env (.deleteMailbox mailboxId) plan.stmts := by
  rw [deleteMailboxAttempt, on_mustGetAccount] at h
  obtain ⟨-, h⟩ := h
  obtain ⟨b, hb, h⟩ := Reads.of_select h rfl
  obtain ⟨-, rfl, -⟩ := activeMailbox_spec hb
  simp only [Reads.on_check, Reads.on_select_bind] at h
  obtain ⟨-, -, h⟩ := h
  cases h
  exact .change _ b _ _ hb rfl rfl rfl rfl rfl (.inr ⟨rfl, rfl⟩)

theorem setSubscribed_planned {subscribed : Bool}
    (h : (setSubscribedAttempt mailboxId subscribed env).on db = .ok plan) :
    Planned u db env (.setSubscribed mailboxId subscribed) plan.stmts := by
  rw [setSubscribedAttempt, on_mustGetAccount] at h
  obtain ⟨-, h⟩ := h
  obtain ⟨b, hb, h⟩ := Reads.of_select h rfl
  obtain ⟨-, rfl, -⟩ := activeMailbox_spec hb
  dsimp only at h
  split at h
  · cases h; exact .nothing _
  · cases h; exact .change _ b _ _ hb rfl rfl rfl rfl rfl (.inl ⟨rfl, rfl⟩)

theorem renameMailbox_planned {mailboxId newParentId : Id} {newName : Text}
    (h : (renameMailboxAttempt mailboxId newParentId newName env).on db = .ok plan) :
    Planned u db env (.renameMailbox mailboxId newParentId newName) plan.stmts := by
  rw [renameMailboxAttempt, on_mustGetAccount] at h
  obtain ⟨-, h⟩ := h
  obtain ⟨b, hb, h⟩ := Reads.of_select h rfl
  obtain ⟨-, rfl, -⟩ := activeMailbox_spec hb
  rw [Reads.on_check] at h
  obtain ⟨-, -, h⟩ := Reads.of_bind h.2
  simp only [Reads.on_select_bind, Reads.on_check] at h
  obtain ⟨-, h⟩ := h
  cases h
  exact .change _ b _ _ hb rfl rfl rfl rfl rfl (.inl ⟨rfl, rfl⟩)

theorem reapMailbox_planned {plan : Plan (Nat × Nat)}
    (h : (reapMailboxAttempt mailboxId env).on db = .ok plan) :
    Planned u db env (.reapMailbox mailboxId) plan.stmts := by
  rw [reapMailboxAttempt, Reads.on_select_bind] at h
  cases hb : deletedMailbox mailboxId db with
  | none =>
    simp only [hb] at h
    cases h
    exact .nothing _
  | some b =>
    have hid : b.id = mailboxId := by
      have hp := List.find?_some hb
      simp only [Bool.and_eq_true, decide_eq_true_eq] at hp
      exact hp.1
    subst hid
    simp only [hb, Reads.on_select_bind] at h
    split at h
    · rename_i hrows
      cases h
      exact .reapEmpty b hb hrows
    · rename_i hrows
      rw [on_mustGetAccount] at h
      obtain ⟨-, h⟩ := h
      rw [on_chunks_bind] at h
      cases h
      exact .reap b hb hrows

theorem setDeleted_spec {uids : List Nat} {deleted : Bool}
    (h : (setDeletedAttempt mailboxId uids deleted env).on db = .ok plan) :
    plan.stmts = [] ∨ ∃ b targets, activeMailbox mailboxId db = some b ∧
      (∀ r, r ∈ targets ↔
        r ∈ db.memberships ∧ r.mailboxId = mailboxId ∧ r.uid ∈ uids ∧ r.deleted ≠ deleted) ∧
      plan.stmts = setDeletedStmts (db.account.modseq + 1) env.now mailboxId deleted targets := by
  rw [setDeletedAttempt, on_mustGetAccount] at h
  obtain ⟨-, h⟩ := h
  split at h
  · cases h; exact .inl rfl
  · simp only [Reads.on_select_bind, Reads.on_check, on_chunks_bind] at h
    obtain ⟨hb, h⟩ := h
    obtain ⟨b, hb⟩ := Option.isSome_iff_exists.mp hb
    split at h
    · cases h; exact .inl rfl
    · cases h
      refine .inr ⟨b, _, hb, fun r => ?_, rfl⟩
      rw [List.mem_filter, mem_readAll_filter 1 uids (·.memberships)
        (fun r => decide (r.mailboxId = mailboxId)) (·.uid) db r]
      simp [and_assoc]

theorem setDeleted_planned {uids : List Nat} {deleted : Bool}
    (h : (setDeletedAttempt mailboxId uids deleted env).on db = .ok plan) :
    Planned u db env (.setDeleted mailboxId uids deleted) plan.stmts := by
  rcases setDeleted_spec h with hnone | ⟨b, targets, hb, htargets, hstmts⟩
  · rw [hnone]
    exact .nothing _
  · rw [hstmts]
    exact .setDeleted mailboxId uids deleted b hb targets htargets

theorem expunge_planned {uids : Option (List Nat)} {plan : Plan (List (Nat × Nat))}
    (h : (expungeAttempt mailboxId uids env).on db = .ok plan) :
    Planned u db env (.expunge mailboxId uids) plan.stmts := by
  rw [expungeAttempt, on_mustGetAccount] at h
  obtain ⟨-, h⟩ := h
  simp only [Reads.on_select_bind, Reads.on_check] at h
  obtain ⟨hb, h⟩ := h
  obtain ⟨b, hb⟩ := Option.isSome_iff_exists.mp hb
  obtain ⟨rows, hrows, h⟩ := Reads.of_bind h
  split at h
  · cases h; exact .nothing _
  · simp only [on_chunks_bind] at h
    cases h
    exact .expunge mailboxId uids b hb rows hrows

theorem removeMembership_planned {messageId mailboxId : Id} {plan : Plan Bool}
    (h : (removeMembershipAttempt messageId mailboxId env).on db = .ok plan) :
    Planned u db env (.removeMessageFromMailbox messageId mailboxId) plan.stmts := by
  rw [removeMembershipAttempt, on_mustGetAccount] at h
  obtain ⟨-, h⟩ := h
  rw [Reads.on_select_bind] at h
  split at h
  · cases h
  · rename_i r m rest hrows
    have hmem : (r, m) ∈
        joinMessages (fun r => r.messageId = messageId && r.mailboxId = mailboxId) db := by
      rw [hrows]
      exact List.mem_cons_self
    obtain ⟨hrow, hp⟩ := mem_joinMessages hmem
    simp only [Bool.and_eq_true, decide_eq_true_eq] at hp
    obtain ⟨rfl, rfl⟩ := hp
    simp only [Reads.on_select_bind] at h
    cases h
    exact .remove r m hrow

theorem destroyMessage_planned {messageId : Id}
    (h : (destroyMessageAttempt messageId env).on db = .ok plan) :
    Planned u db env (.destroyMessage messageId) plan.stmts := by
  rw [destroyMessageAttempt, on_mustGetAccount] at h
  obtain ⟨-, h⟩ := h
  obtain ⟨m, hm, h⟩ := Reads.of_select h rfl
  obtain ⟨hmem, rfl⟩ := messageOf_spec hm
  simp only [Reads.on_select_bind] at h
  cases h
  exact .destroy m hmem

theorem moveMessage_planned {messageId fromId toId : Id} {plan : Plan (Nat × Nat)}
    (h : (moveMessageAttempt messageId fromId toId env).on db = .ok plan) :
    Planned u db env (.moveMessage messageId fromId toId) plan.stmts := by
  rw [moveMessageAttempt, on_mustGetAccount] at h
  obtain ⟨-, h⟩ := h
  obtain ⟨m, hm, h₁⟩ := Reads.of_select h rfl
  obtain ⟨hmem, rfl⟩ := messageOf_spec hm
  obtain ⟨source, hsource, h₂⟩ := Reads.of_select h₁ rfl
  obtain ⟨hsrc, rfl, hsame⟩ := membershipOf_spec hsource
  obtain ⟨target, htarget, h₃⟩ := Reads.of_select h₂ rfl
  obtain ⟨-, rfl, -⟩ := activeMailbox_spec htarget
  rw [Reads.on_select_bind] at h₃
  cases hnew : membershipOf target.id m.id db with
  | some r =>
    simp only [hnew] at h₃
    cases h₃
    exact .nothing _
  | none =>
    simp only [hnew] at h₃
    cases h₃
    exact .move m source target ⟨hsrc, hmem, hsame.symm⟩ htarget hnew

theorem copyMessage_planned {messageId toId : Id} {plan : Plan (Nat × Nat)}
    (h : (copyMessageAttempt messageId toId env).on db = .ok plan) :
    Planned u db env (.copyMessage messageId toId) plan.stmts := by
  rw [copyMessageAttempt, on_mustGetAccount] at h
  obtain ⟨-, h⟩ := h
  obtain ⟨m, hm, h⟩ := Reads.of_select h rfl
  obtain ⟨hmem, rfl⟩ := messageOf_spec hm
  obtain ⟨target, htarget, h⟩ := Reads.of_select h rfl
  obtain ⟨-, rfl, -⟩ := activeMailbox_spec htarget
  rw [Reads.on_select_bind] at h
  cases hnew : membershipOf target.id m.id db with
  | some r =>
    simp only [hnew] at h
    cases h
    exact .nothing _
  | none =>
    simp only [hnew] at h
    cases h
    exact .copy m target hmem htarget hnew

theorem contains_keywordsOf (id : Id) (db : Db) :
    (keywordsOf id db).contains seenKeyword = hasSeen id db := by
  rw [hasSeen, Bool.eq_iff_iff, List.contains_iff_mem, List.contains_iff_mem, keywordsOf,
    List.mem_map]
  constructor
  · rintro ⟨k, hk, hseen⟩
    rw [List.mem_filter, decide_eq_true_eq] at hk
    rw [← hk.2, ← hseen]
    exact hk.1
  · intro h
    exact ⟨_, List.mem_filter.mpr ⟨h, by simp⟩, rfl⟩

theorem setKeywords_planned {messageId : Id}
    (h : (setKeywordsAttempt u messageId add remove env).on db = .ok plan) :
    Planned u db env (.setKeywords messageId add remove) plan.stmts := by
  rw [setKeywordsAttempt, on_mustGetAccount] at h
  obtain ⟨-, h⟩ := h
  simp only [Reads.on_select_bind, Reads.on_check] at h
  obtain ⟨hfound, h⟩ := h
  obtain ⟨m, hm⟩ := Option.isSome_iff_exists.mp hfound
  split at h
  · cases h; exact .nothing _
  · cases h
    refine .setKeywords _ _ _ _ ⟨⟨m, (messageOf_spec hm).1, (messageOf_spec hm).2⟩,
      contains_keywordsOf messageId db, rfl, fun k hk hrem => ?_⟩
    have hnot := (List.mem_filter.mp hk).2
    have hin := (List.mem_filter.mp hrem).1
    simp [hin] at hnot

theorem batchChange_readAll (hnodup : targets.Nodup) (add remove : List Text)
    (replace : Bool) (hid : id ∈ targets) :
    batchChange add remove replace
      (readAll 0 targets (fun part db => db.keywords.filter fun k => part.contains k.messageId) db)
      (readAll 0 targets (fun part db => db.memberships.filter fun r => part.contains r.messageId) db)
      id = batchChange add remove replace db.keywords db.memberships id := by
  have hparts : (Table.chunk (max 1 (maxParamsPerStatement - 0)) targets).flatten.Nodup := by
    rwa [Table.flatten_chunk]
  have hin : id ∈ (Table.chunk (max 1 (maxParamsPerStatement - 0)) targets).flatten := by
    rwa [Table.flatten_chunk]
  have hkeywords := Table.filter_flatMap_parts (·.messageId) db.keywords hparts hin
  have hmemberships := Table.filter_flatMap_parts (·.messageId) db.memberships hparts hin
  rw [batchChange, batchChange, readAll, readAll, hkeywords, hmemberships]

theorem batchChange_facts (hnodup : targets.Nodup) (add remove : List Text)
    (replace : Bool) (hid : id ∈ targets) (hm : ∃ m ∈ db.messages, m.id = id) :
    KeywordFacts db (batchChange add remove replace
      (readAll 0 targets (fun part db => db.keywords.filter fun k => part.contains k.messageId) db)
      (readAll 0 targets (fun part db => db.memberships.filter fun r => part.contains r.messageId) db)
      id) := by
  rw [batchChange_readAll hnodup add remove replace hid]
  constructor
  · exact hm
  · change List.contains _ _ = hasSeen id db
    rw [← contains_keywordsOf, keywordsOf]
  · rfl
  · intro k hk hrem
    have hnot := (List.mem_filter.mp hk).2
    cases replace
    · have hcur := (List.mem_filter.mp hrem).2
      simp only [hcur, Bool.not_true, Bool.false_and] at hnot
      exact absurd hnot (by simp)
    · have hcur : k ∈ _ := (List.mem_filter.mp hrem).1
      rw [← List.contains_iff_mem] at hcur
      simp only [hcur, Bool.not_true, Bool.false_and] at hnot
      exact absurd hnot (by simp)

theorem changes_nodup (hnodup : targets.Nodup) (add remove : List Text)
    (replace : Bool) (keywords : List Keyword) (memberships : List Membership)
    (p : KeywordChange → Bool) :
    (((targets.map (batchChange add remove replace keywords memberships)).filter p).map
      (·.id)).Nodup := by
  have hids : (targets.map (batchChange add remove replace keywords memberships)).map (·.id) =
      targets := by
    rw [List.map_map]
    exact List.map_id targets
  refine List.Nodup.sublist (List.filter_sublist.map _) ?_
  rw [hids]
  exact hnodup

theorem setKeywordsBatch_spec {messageIds : List Id} {replace : Bool}
    {plan : Plan (List Id)}
    (h : (setKeywordsBatchAttempt u messageIds add remove replace env).on db = .ok plan) :
    plan.stmts = [] ∨ ∃ changes : List KeywordChange, (changes.map (·.id)).Nodup ∧
      (∀ c ∈ changes, KeywordFacts db c) ∧
      (∀ c ∈ changes, c.id ∈ messageIds ∧ ¬ (c.toAdd = [] ∧ c.toRemove = []) ∧
        c = batchChange (lowerSet u add) (lowerSet u remove) replace db.keywords db.memberships c.id) ∧
      plan.stmts = setKeywordsBatchStmts (db.account.modseq + 1) env.now changes := by
  rw [setKeywordsBatchAttempt, on_mustGetAccount] at h
  obtain ⟨-, h⟩ := h
  rw [on_chunks_bind] at h
  generalize htargets : (messageIds.eraseDups.filter fun id =>
    (readAll 1 messageIds.eraseDups (fun part db => db.messages.filter fun m => part.contains m.id)
      db).any fun m => m.id = id) = targets at h
  have hnodup : targets.Nodup := htargets ▸ (Table.nodup_eraseDups messageIds).filter _
  have howned : ∀ id ∈ targets, ∃ m ∈ db.messages, m.id = id := by
    intro id hid
    rw [← htargets, List.mem_filter, List.any_eq_true] at hid
    obtain ⟨-, m, hm, hmid⟩ := hid
    obtain ⟨part, hm⟩ := mem_readAll hm
    exact ⟨m, (List.mem_filter.mp hm).1, by simpa using hmid⟩
  dsimp only at h
  split at h
  · cases h; exact .inl rfl
  · simp only [on_chunks_bind] at h
    split at h
    · cases h; exact .inl rfl
    · cases h
      refine .inr ⟨_, ?_, fun c hc => ?_, fun c hc => ?_, rfl⟩
      · exact changes_nodup hnodup _ _ _ _ _ _
      · obtain ⟨id, hid, rfl⟩ := List.mem_map.mp (List.mem_filter.mp hc).1
        exact batchChange_facts hnodup _ _ _ hid (howned id hid)
      · obtain ⟨hc, hsome⟩ := List.mem_filter.mp hc
        obtain ⟨id, hid, rfl⟩ := List.mem_map.mp hc
        refine ⟨?_, fun hnone => ?_, batchChange_readAll hnodup _ _ _ hid⟩
        · rw [← htargets] at hid
          exact List.mem_eraseDups.mp (List.mem_filter.mp hid).1
        · rw [hnone.1, hnone.2] at hsome
          cases hsome

theorem setKeywordsBatch_planned {messageIds : List Id} {replace : Bool}
    {plan : Plan (List Id)}
    (h : (setKeywordsBatchAttempt u messageIds add remove replace env).on db = .ok plan) :
    Planned u db env (.setKeywordsBatch messageIds add remove replace) plan.stmts := by
  rcases setKeywordsBatch_spec h with hnone | ⟨changes, hids, hfacts, -, hstmts⟩
  · rw [hnone]
    exact .nothing _
  · rw [hstmts]
    exact .setKeywordsBatch _ _ _ _ changes hids hfacts

theorem on_assertQuota {α : Type} {acct : AccountSnapshot} {bytes : Nat} {f : Unit → Reads α} {a : α} :
    (assertQuota acct bytes >>= f).on db = .ok a ↔
      (0 < acct.quotaBytes → acct.usedBytes + bytes ≤ acct.quotaBytes) ∧ (f ()).on db = .ok a := by
  rw [assertQuota, Reads.on_check]
  apply and_congr_left
  intro _
  simp only [Bool.not_eq_true', Bool.and_eq_false_iff, decide_eq_false_iff_not]
  omega

/-- The rows a transfer has read. -/
structure TransferReads (db : Db) (fromId toId : Id) (op : TransferOp) (ids : List Id)
    (rows : TransferRows) : Prop where
  messages : ∀ m, m ∈ rows.messages ↔ m ∈ db.messages ∧ m.id ∈ ids
  sources : ∀ r ∈ rows.sources, r ∈ db.memberships ∧ r.mailboxId = fromId
  existing : ∀ r ∈ rows.existing, r ∈ db.memberships ∧ r.mailboxId = toId ∧ op = .move
  keywords : ∀ k, k ∈ rows.keywords ↔ k ∈ db.keywords ∧ k.messageId ∈ ids

theorem transferLoop_found {fromId toId : Id} {op : TransferOp}
    {rows : TransferRows} (hrows : TransferReads db fromId toId op ids rows) (ulid : Nat → Id)
    (cursor n : Nat) (list : List Id) :
    ∀ t ∈ (transferLoop op rows ulid cursor n list).1, TransferFound db fromId toId op ids t := by
  induction list generalizing cursor n with
  | nil => simp [transferLoop]
  | cons id list ih =>
    rw [transferLoop]
    split
    · rename_i m source hm hsource
      have hmid : m.id = id := by simpa using List.find?_some hm
      have hsid : source.messageId = id := by simpa using List.find?_some hsource
      obtain ⟨hmem, hin⟩ := (hrows.messages m).mp (List.mem_of_find?_eq_some hm)
      obtain ⟨hsrc, hfrom⟩ := hrows.sources source (List.mem_of_find?_eq_some hsource)
      have hjoined : JoinedRow db (source, m) := ⟨hsrc, hmem, hmid.trans hsid.symm⟩
      split
      · rename_i e he
        have heid : e.messageId = id := by simpa using List.find?_some he
        obtain ⟨hemem, hto, hop⟩ := hrows.existing e (List.mem_of_find?_eq_some he)
        rw [List.forall_mem_cons]
        exact ⟨⟨hjoined, hfrom, hin, hop, e, hemem, hto, heid.trans hmid.symm, rfl⟩, ih _ _⟩
      · cases op with
        | move =>
          rw [List.forall_mem_cons]
          exact ⟨⟨hjoined, hfrom, hin, rfl⟩, ih _ _⟩
        | copy =>
          rw [List.forall_mem_cons]
          exact ⟨⟨hmem, hin, rfl⟩, ih _ _⟩
    · exact ih _ _

theorem transferLoop_uids (op : TransferOp) (rows : TransferRows) (ulid : Nat → Id)
    (cursor n : Nat) (list : List Id) :
    TransferUids cursor (transferLoop op rows ulid cursor n list).2
      (transferLoop op rows ulid cursor n list).1 := by
  induction list generalizing cursor n with
  | nil => simp [transferLoop, TransferUids]
  | cons id list ih =>
    -- A message that enters takes the cursor, and the rest goes on behind it.
    have hnext : ∀ n t, t.enters.map (·.2.2) = some cursor →
        TransferUids cursor (transferLoop op rows ulid (cursor + 1) n list).2
          (t :: (transferLoop op rows ulid (cursor + 1) n list).1) := by
      intro n t ht
      obtain ⟨hle, hrest⟩ := ih (cursor + 1) n
      obtain ⟨q, hq, hqc⟩ := Option.map_eq_some_iff.mp ht
      refine ⟨by omega, ?_⟩
      rw [List.filterMap_cons, hq, List.forall_mem_cons]
      refine ⟨by omega, fun p hp => ?_⟩
      have := hrest p hp
      omega
    rw [transferLoop]
    split
    · split
      · refine ⟨(ih cursor n).1, ?_⟩
        simpa [Transfer.enters] using (ih cursor n).2
      · cases op with
        | move => exact hnext n _ rfl
        | copy => exact hnext (n + 1) _ rfl
    · exact ih cursor n

theorem transferReads (fromId toId : Id) (op : TransferOp) (ids : List Id)
    (addresses : List Address) (headers : List Header) :
    TransferReads db fromId toId op ids
      ⟨readAll 1 ids (fun part db => db.messages.filter fun m => part.contains m.id) db,
        readAll 1 ids (membershipsIn fromId) db,
        if op = .move then readAll 1 ids (membershipsIn toId) db else [],
        readAll 1 ids (fun part db => db.keywords.filter fun k => part.contains k.messageId) db,
        addresses, headers⟩ := by
  have hin : ∀ b r, r ∈ readAll 1 ids (membershipsIn b) db →
      r ∈ db.memberships ∧ r.mailboxId = b := by
    intro b r hr
    obtain ⟨part, hr⟩ := mem_readAll hr
    rw [membershipsIn, List.mem_filter, Bool.and_eq_true, decide_eq_true_eq] at hr
    exact ⟨hr.1, hr.2.1⟩
  constructor
  · exact mem_readAll_key 1 ids (·.messages) (·.id) db
  · exact hin fromId
  · intro r hr
    dsimp only at hr
    split at hr
    · rename_i hop
      exact ⟨(hin toId r hr).1, (hin toId r hr).2, hop⟩
    · cases hr
  · exact mem_readAll_key 1 ids (·.keywords) (·.messageId) db

theorem on_readFor {ρ α : Type} {wanted op : TransferOp} {fixed : Nat} {items : List Id}
    {read : List Id → Db → List ρ} {f : List ρ → Reads α} :
    (readFor wanted op (queryInChunks fixed items read) >>= f).on db =
      (f (if op = wanted then readAll fixed items read db else [])).on db := by
  by_cases hop : op = wanted
  · rw [readFor, if_pos hop, if_pos hop, on_chunks_bind]
  · rw [readFor, if_neg hop, if_neg hop]
    rfl

theorem copyOrMove_planned {fromId toId : Id} {op : TransferOp}
    {plan : Plan (List (Id × Nat))}
    (h : (copyOrMoveBatchAttempt ids fromId toId op env).on db = .ok plan) :
    Planned u db env (.copyOrMoveMessages ids fromId toId op) plan.stmts := by
  rw [copyOrMoveBatchAttempt, on_mustGetAccount] at h
  obtain ⟨-, h⟩ := h
  obtain ⟨target, htarget, h⟩ := Reads.of_select h rfl
  simp only [on_chunks_bind] at h
  split at h
  · cases h; exact .nothing _
  · rename_i hapart
    simp only [on_readFor, on_chunks_bind] at h
    generalize hrows : (⟨_, _, _, _, _, _⟩ : TransferRows) = rows at h
    have hreads : TransferReads db fromId toId op ids rows := by
      subst hrows
      exact transferReads fromId toId op ids _ _
    have hfound := transferLoop_found hreads env.ulid target.uidnext 0 ids
    have huids := transferLoop_uids op rows env.ulid target.uidnext 0 ids
    have hmove : op = .move → fromId ≠ toId := fun hop hsame => hapart ⟨hop, hsame⟩
    split at h
    · cases h; exact .nothing _
    · split at h
      · rw [on_assertQuota] at h
        obtain ⟨hroom, h⟩ := h
        obtain rfl := Except.ok.inj h
        exact .transfer ids fromId toId op target htarget rows _ _
          ⟨hfound, hreads.keywords, hreads.messages, hmove, fun _ => hroom⟩ huids
      · rename_i hnone
        obtain rfl := Except.ok.inj h
        exact .transfer ids fromId toId op target htarget rows _ _
          ⟨hfound, hreads.keywords, hreads.messages, hmove, fun hsome => absurd hsome hnone⟩ huids

theorem allocate_ids (cursor : List (Id × Nat)) (ids : List Id) :
    (allocate cursor ids).1.map (·.1) = ids := by
  induction ids generalizing cursor with
  | nil => rfl
  | cons b bs ih => rw [allocate, List.map_cons, ih]

def Between (cursor cursor' : List (Id × Nat)) (p : Id × Nat) : Prop :=
  (Assoc.get cursor p.1).getD 0 ≤ p.2 ∧ p.2 < (Assoc.get cursor' p.1).getD 0

def Forward (cursor cursor' : List (Id × Nat)) : Prop :=
  ∀ b, (Assoc.get cursor b).getD 0 ≤ (Assoc.get cursor' b).getD 0

theorem allocate_uids (cursor : List (Id × Nat)) (ids : List Id) :
    Forward cursor (allocate cursor ids).2 ∧
      ∀ p ∈ (allocate cursor ids).1, Between cursor (allocate cursor ids).2 p := by
  induction ids generalizing cursor with
  | nil => exact ⟨fun b => Nat.le_refl _, by simp [allocate]⟩
  | cons b bs ih =>
    obtain ⟨hforward, hrest⟩ := ih (Assoc.set cursor b ((Assoc.get cursor b).getD 0 + 1))
    have hset : Forward cursor (Assoc.set cursor b ((Assoc.get cursor b).getD 0 + 1)) := by
      intro x
      rw [Assoc.get_set]
      split
      · rename_i hx
        subst hx
        simp
      · exact Nat.le_refl _
    rw [allocate]
    refine ⟨fun x => (hset x).trans (hforward x), ?_⟩
    rw [List.forall_mem_cons]
    refine ⟨⟨Nat.le_refl _, ?_⟩, fun p hp => ?_⟩
    · have := hforward b
      rw [Assoc.get_set_self, Option.getD_some] at this
      exact this
    · exact ⟨(hset p.1).trans (hrest p hp).1, (hrest p hp).2⟩

theorem appendLoop_cons {n : Nat} {cursor cursor' : List (Id × Nat)} {pending : List (Text × Id)}
    {input : AppendInput} {group : List Appended}
    (h : (appendLoop env n cursor pending (input :: inputs)).on db = .ok (group, cursor')) :
    ∃ (pending' : List (Text × Id)) (a : Appended) (rest : List Appended), group = a :: rest ∧
      a.input = input ∧ a.uids = (allocate cursor input.mailboxIds.eraseDups).1 ∧
      (appendLoop env (n + 1) (allocate cursor input.mailboxIds.eraseDups).2 pending' inputs).on db =
        .ok (rest, cursor') := by
  rw [appendLoop] at h
  obtain ⟨thread, -, h⟩ := Reads.of_bind h
  obtain ⟨rest, hrest, h⟩ := Reads.of_bind h
  cases h
  exact ⟨_, _, _, rfl, rfl, rfl, hrest⟩

theorem appendLoop_uids {n : Nat} {cursor cursor' : List (Id × Nat)} {pending : List (Text × Id)}
    {group : List Appended}
    (h : (appendLoop env n cursor pending inputs).on db = .ok (group, cursor')) :
    Forward cursor cursor' ∧ (∀ a ∈ group, ∀ p ∈ a.uids, Between cursor cursor' p) ∧
      group.map (·.input) = inputs ∧
        ∀ a ∈ group, a.uids.map (·.1) = a.input.mailboxIds.eraseDups := by
  induction inputs generalizing n cursor pending group with
  | nil =>
    cases h
    exact ⟨fun b => Nat.le_refl _, by simp, rfl, by simp⟩
  | cons input inputs ih =>
    obtain ⟨pending', a, rest, rfl, rfl, huids, hrest⟩ := appendLoop_cons h
    obtain ⟨hforward, hlater, hinputs, hids⟩ := ih hrest
    obtain ⟨hset, hnow⟩ := allocate_uids cursor a.input.mailboxIds.eraseDups
    refine ⟨fun b => (hset b).trans (hforward b), ?_, by rw [List.map_cons, hinputs], ?_⟩
    · rw [List.forall_mem_cons, huids]
      refine ⟨fun p hp => ?_, fun a ha p hp => ?_⟩
      · exact ⟨(hnow p hp).1, (hnow p hp).2.trans_le (hforward p.1)⟩
      · exact ⟨(hset p.1).trans (hlater a ha p hp).1, (hlater a ha p hp).2⟩
    · rw [List.forall_mem_cons, huids]
      exact ⟨allocate_ids cursor _, hids⟩

theorem on_getMailboxesForWrite {α : Type} {f : List (Id × Nat) → Reads α} {a : α}
    (h : (getMailboxesForWrite ids >>= f).on db = .ok a) :
    (∀ id ∈ ids, ∃ b, activeMailbox id db = some b) ∧
      ∃ cursor, (∀ id ∈ ids, ∃ b ∈ db.mailboxes, b.id = id ∧ b.status = .active ∧
        (Assoc.get cursor id).getD 0 = b.uidnext) ∧ (f cursor).on db = .ok a := by
  obtain ⟨cursor, hread, h⟩ := Reads.of_bind h
  rw [getMailboxesForWrite, Reads.on_check, on_chunks_bind, Reads.on_check] at hread
  obtain ⟨-, hall, hread⟩ := hread
  have hrow := mem_readAll_filter 1 ids (·.mailboxes) (fun b => decide (b.status = .active))
    (·.id) db
  refine ⟨fun id hid => ?_, cursor, fun id hid => ?_, h⟩
  · obtain ⟨b, hb, hbid⟩ := List.any_eq_true.mp (List.all_eq_true.mp hall id hid)
    rw [hrow] at hb
    rw [← Option.isSome_iff_exists, activeMailbox, List.find?_isSome]
    exact ⟨b, hb.1, by simpa using ⟨by simpa using hbid, by simpa using hb.2.1⟩⟩
  · have hsome := List.find?_isSome.mpr (List.any_eq_true.mp (List.all_eq_true.mp hall id hid))
    obtain ⟨b, hb⟩ := Option.isSome_iff_exists.mp hsome
    have hmem := (hrow b).mp (List.mem_of_find?_eq_some hb)
    refine ⟨b, hmem.1, by simpa using List.find?_some hb, by simpa using hmem.2.1, ?_⟩
    cases hread
    rw [Assoc.get_map _ hid, hb]
    rfl

theorem appendMessages_planned {plan : Plan (List Appended)}
    (h : (appendMessagesAttempt u inputs env).on db = .ok plan) :
    Planned u db env (.appendMessages inputs) plan.stmts := by
  rw [appendMessagesAttempt, on_mustGetAccount, on_assertQuota] at h
  obtain ⟨-, hroom, h⟩ := h
  obtain ⟨hactive, cursor, hcursor, h⟩ := on_getMailboxesForWrite h
  obtain ⟨r, hloop, h⟩ := Reads.of_bind h
  cases h
  have hspec := (appendLoop_uids hloop).2.2
  have hin : ∀ a ∈ r.1, ∀ p ∈ a.uids, p.1 ∈ (inputs.flatMap (·.mailboxIds)).eraseDups := by
    intro a ha p hp
    have hp' : p.1 ∈ a.input.mailboxIds.eraseDups := by
      rw [← hspec.2 a ha]
      exact List.mem_map_of_mem hp
    rw [List.mem_eraseDups, List.mem_flatMap, ← hspec.1]
    exact ⟨a.input, List.mem_map_of_mem ha, List.mem_eraseDups.mp hp'⟩
  refine .append inputs r.1 r.2 ⟨fun a ha => ?_, fun a ha p hp => hactive p.1 (hin a ha p hp), ?_⟩
    fun a ha p hp => ?_
  · rw [hspec.2 a ha]
    exact Table.nodup_eraseDups _
  · have hsum : r.1.map (·.input.sizeBytes) = inputs.map (·.sizeBytes) := by
      rw [← hspec.1, List.map_map]
      rfl
    rw [hsum]
    exact hroom
  · obtain ⟨b, hb, hid, hstatus, hnext⟩ := hcursor p.1 (hin a ha p hp)
    obtain ⟨hlow, hhigh⟩ := (appendLoop_uids hloop).2.1 a ha p hp
    exact ⟨b, hb, hid, hstatus, hnext ▸ hlow, hhigh⟩

theorem planned {op : Op} (h : (op.attempt u env).on db = .ok plan) :
    Planned u db env op plan.stmts := by
  cases op with
  | createMailbox parentId name role =>
    obtain ⟨p, hp, rfl⟩ := on_stmts.mp h
    exact createMailbox_planned hp
  | deleteMailbox mailboxId => exact deleteMailbox_planned h
  | reapMailbox mailboxId =>
    obtain ⟨p, hp, rfl⟩ := on_stmts.mp h
    exact reapMailbox_planned hp
  | setSubscribed mailboxId subscribed => exact setSubscribed_planned h
  | renameMailbox mailboxId newParentId newName => exact renameMailbox_planned h
  | appendMessages inputs =>
    cases inputs with
    | nil => cases h; exact .nothing _
    | cons input inputs =>
      obtain ⟨p, hp, rfl⟩ := on_stmts.mp h
      exact appendMessages_planned hp
  | setKeywords messageId add remove => exact setKeywords_planned h
  | setKeywordsBatch messageIds add remove replace =>
    rw [Op.attempt] at h
    split at h
    · cases h; exact .nothing _
    · obtain ⟨p, hp, rfl⟩ := on_stmts.mp h
      exact setKeywordsBatch_planned hp
  | setDeleted mailboxId uids deleted => exact setDeleted_planned h
  | expunge mailboxId uids =>
    obtain ⟨p, hp, rfl⟩ := on_stmts.mp h
    exact expunge_planned hp
  | removeMessageFromMailbox messageId mailboxId =>
    obtain ⟨p, hp, rfl⟩ := on_stmts.mp h
    exact removeMembership_planned hp
  | copyOrMoveMessages messageIds fromId toId kind =>
    rw [Op.attempt] at h
    split at h
    · cases h; exact .nothing _
    · obtain ⟨p, hp, rfl⟩ := on_stmts.mp h
      exact copyOrMove_planned hp
  | destroyMessage messageId => exact destroyMessage_planned h
  | moveMessage messageId fromId toId =>
    obtain ⟨p, hp, rfl⟩ := on_stmts.mp h
    exact moveMessage_planned hp
  | copyMessage messageId toId =>
    obtain ⟨p, hp, rfl⟩ := on_stmts.mp h
    exact copyMessage_planned hp

end

end Ionosphere.Store
