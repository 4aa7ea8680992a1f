import Ionosphere.Lib.Parts
import Ionosphere.Store.Plans
import Ionosphere.Store.Tokenize

/-! The values bound to the statements of a batch. The drivers share a limit of a hundred
for one statement, so every list of rows is cut into parts that leave room for the rest. -/
namespace Ionosphere.Store

open Ionosphere.Js Ionosphere.Lib Search

inductive Value where
  | null
  | number (n : Int)
  | text (t : Text)
  | token (t : Token)
  deriving DecidableEq

abbrev Params := List Value

namespace Value

def nat (n : Nat) : Value := number n
def bool (b : Bool) : Value := number (if b then 1 else 0)
def optional (t : Option Text) : Value := (t.map text).getD null
def optionalNumber (n : Option Int) : Value := (n.map number).getD null

end Value

open Value

def Entity.code : Entity → Nat
  | email => 0
  | mailbox => 1
  | thread => 2
  | submission => 3
  | identity => 5

def ChangeKind.code : ChangeKind → Nat
  | created => 0
  | updated => 1
  | destroyed => 2

def BlobStatus.code : BlobStatus → Nat
  | live => 0
  | doomed => 1
  | swept => 2

/-- `REF_KIND.message`. -/
def messageRef : Nat := 0

/-- The new values of an `UPDATE mailboxes`. Some operations write one of them into the
text instead; here it counts as bound. -/
def MailboxSet.params (set : MailboxSet) : Params :=
  (set.parentId.map text).toList ++ (set.name.map text).toList ++
    (set.status.map fun s => nat (if s = .active then 1 else 2)).toList ++
    (set.subscribed.map bool).toList ++ (set.uidnext.map nat).toList ++
    [nat set.highestmodseq, number set.totalCount, number set.totalBytes, number set.unreadCount]

/-- The new values of an `UPDATE accounts`. -/
def AccountSet.params (set : AccountSet) : Params :=
  [nat set.modseq] ++ (if set.email then [nat set.modseq] else []) ++
    (if set.mailbox then [nat set.modseq] else []) ++
    (if set.thread then [nat set.modseq] else []) ++ (set.uidvalidityLast.map nat).toList ++
    [number set.usedBytes, number set.messageCount]

section

variable (accountId : Id) (now : Nat)

def MessageRow.values (m : MessageRow) : Params :=
  [text m.id, text accountId, text m.blobId, text m.threadId, nat m.modseq, nat m.sizeBytes,
    nat m.receivedAt, optional m.envelope.subject, optional m.envelope.subjectBase,
    optional m.envelope.msgidHash, optionalNumber m.envelope.sentAt, optional m.envelope.preview,
    bool m.envelope.hasAttachment, nat now]

def Membership.values (r : Membership) : Params :=
  [text r.mailboxId, nat r.uid, text r.messageId, nat r.savedate, bool r.deleted]

def Keyword.values (k : Keyword) : Params := [text accountId, text k.messageId, text k.keyword]

def Address.values (a : Address) : Params :=
  [text accountId, text a.messageId, nat a.kind, nat a.pos, optional a.name, text a.email]

def Header.values (h : Header) : Params :=
  [text h.messageId, nat h.occurrence, text h.name, text h.kind, text h.displayValue,
    text h.sortValue, optionalNumber h.dateValue, optional h.addressValue]

def BlobRef.values (r : BlobRef) : Params :=
  [text r.blobId, text accountId, nat messageRef, text r.refId, nat now]

def Expunged.values (x : Expunged) : Params :=
  [text x.mailboxId, nat x.uid, nat x.modseq, nat x.createdAt]

/-- What `params` of the statement holds. -/
def Stmt.params : Stmt → Params
  | claim modseq => [text accountId, nat modseq]
  | insertMailbox row =>
    [text row.id, text accountId, text row.parentId, text row.name, optional row.role,
      nat row.uidvalidity, nat row.highestmodseq, nat now]
  | updateMailbox id set => set.params ++ [text id]
  | deleteMailbox id => [text id]
  | insertMessages rows => rows.flatMap (·.values accountId now)
  | setModseq modseq ids => nat modseq :: ids.map text
  | deleteMessages ids => ids.map text
  | insertMemberships rows => rows.flatMap (·.values)
  | setDeleted deleted mailboxId uids => bool deleted :: text mailboxId :: uids.map nat
  | deleteMemberships mailboxId uids => text mailboxId :: uids.map nat
  | deleteMailboxMemberships mailboxId => [text mailboxId]
  | insertKeywords rows => rows.flatMap (·.values accountId)
  | deleteKeywords messageId keywords => text messageId :: keywords.map text
  | deleteMessageKeywords ids => ids.map text
  | insertAddresses rows => rows.flatMap (·.values accountId)
  | deleteAddresses ids => ids.map text
  | insertHeaders rows => rows.flatMap (·.values)
  | deleteHeaders ids => ids.map text
  | insertBlob row =>
    [text row.id, nat row.sizeBytes, nat 0, nat row.status.code, nat row.generation, nat now]
  | reviveBlob id generation =>
    [nat BlobStatus.live.code, nat generation, text id, nat generation]
  | insertBlobRefs rows => rows.flatMap (·.values accountId now)
  | deleteBlobRefs refIds => refIds.map text
  | insertThreadRef row => [text accountId, text row.refHash, text row.threadId, nat row.createdAt]
  | insertExpunged rows => rows.flatMap (·.values)
  | deleteExpunged mailboxId => [text mailboxId]
  | changeLog row =>
    [text accountId, nat row.modseq, nat row.entity.code, text row.objectId, nat row.kind.code,
      nat row.createdAt]
  | updateAccount set => set.params ++ [text accountId]

end

theorem MailboxSet.length_params (set : MailboxSet) : set.params.length ≤ 9 := by
  have hoption : ∀ {α : Type} (o : Option α) (f : α → Value), (o.map f).toList.length ≤ 1 := by
    intro α o f
    cases o <;> simp
  have hparent := hoption set.parentId text
  have hname := hoption set.name text
  have hstatus := hoption set.status fun s => nat (if s = .active then 1 else 2)
  have hsubscribed := hoption set.subscribed bool
  have huidnext := hoption set.uidnext nat
  simp only [params, List.length_append, List.length_cons, List.length_nil]
  omega

theorem AccountSet.length_params (set : AccountSet) : set.params.length ≤ 7 := by
  obtain ⟨modseq, email, mailbox, thread, uidvalidity, bytes, count⟩ := set
  cases email <;> cases mailbox <;> cases thread <;> cases uidvalidity <;> simp [params]

theorem length_rows {ρ : Type} (columns : Nat) (values : ρ → Params)
    (hvalues : ∀ r, (values r).length = columns) (rows : List ρ) :
    (rows.flatMap values).length = rows.length * columns := by
  induction rows with
  | nil => simp
  | cons r rows ih =>
    rw [List.flatMap_cons, List.length_append, ih, hvalues, List.length_cons, Nat.succ_mul,
      Nat.add_comm]

/-- The number of values a statement binds for a list, and besides it. -/
def Stmt.size : Stmt → Nat
  | insertMessages rows => rows.length * 14
  | insertMemberships rows => rows.length * 5
  | insertKeywords rows => rows.length * 3
  | insertAddresses rows => rows.length * 6
  | insertHeaders rows => rows.length * 8
  | insertBlobRefs rows => rows.length * 5
  | insertExpunged rows => rows.length * 4
  | setDeleted _ _ uids => uids.length + 2
  | setModseq _ ids => ids.length + 1
  | deleteMemberships _ uids => uids.length + 1
  | deleteKeywords _ keywords => keywords.length + 1
  | deleteMessages ids => ids.length
  | deleteMessageKeywords ids => ids.length
  | deleteAddresses ids => ids.length
  | deleteHeaders ids => ids.length
  | deleteBlobRefs refIds => refIds.length
  | _ => 10

theorem Stmt.length_params (accountId : Id) (now : Nat) (s : Stmt) :
    (s.params accountId now).length ≤ s.size := by
  cases s with
  | insertMessages rows => rw [params, length_rows 14 _ fun _ => rfl, size]
  | insertMemberships rows => rw [params, length_rows 5 _ fun _ => rfl, size]
  | insertKeywords rows => rw [params, length_rows 3 _ fun _ => rfl, size]
  | insertAddresses rows => rw [params, length_rows 6 _ fun _ => rfl, size]
  | insertHeaders rows => rw [params, length_rows 8 _ fun _ => rfl, size]
  | insertBlobRefs rows => rw [params, length_rows 5 _ fun _ => rfl, size]
  | insertExpunged rows => rw [params, length_rows 4 _ fun _ => rfl, size]
  | updateMailbox id set =>
    have := set.length_params
    simp only [params, size, List.length_append, List.length_cons, List.length_nil]
    omega
  | updateAccount set =>
    have := set.length_params
    simp only [params, size, List.length_append, List.length_cons, List.length_nil]
    omega
  | _ => simp [params, size]

def Stmt.listed : Stmt → List Stmt
  | insertMessages rows => rows.map fun r => insertMessages [r]
  | insertMemberships rows => rows.map fun r => insertMemberships [r]
  | insertKeywords rows => rows.map fun r => insertKeywords [r]
  | insertAddresses rows => rows.map fun r => insertAddresses [r]
  | insertHeaders rows => rows.map fun r => insertHeaders [r]
  | insertBlobRefs rows => rows.map fun r => insertBlobRefs [r]
  | insertExpunged rows => rows.map fun r => insertExpunged [r]
  | setDeleted deleted mailboxId uids => uids.map fun uid => setDeleted deleted mailboxId [uid]
  | setModseq modseq ids => ids.map fun id => setModseq modseq [id]
  | deleteMemberships mailboxId uids => uids.map fun uid => deleteMemberships mailboxId [uid]
  | deleteKeywords messageId keywords => keywords.map fun k => deleteKeywords messageId [k]
  | deleteMessages ids => ids.map fun id => deleteMessages [id]
  | deleteMessageKeywords ids => ids.map fun id => deleteMessageKeywords [id]
  | deleteAddresses ids => ids.map fun id => deleteAddresses [id]
  | deleteHeaders ids => ids.map fun id => deleteHeaders [id]
  | deleteBlobRefs refIds => refIds.map fun id => deleteBlobRefs [id]
  | _ => []

/-- A statement that inserts rows of some columns. -/
class RowStmt {α : Type} (columns : outParam Nat) (stmt : List α → Stmt) : Prop where
  columns_pos : 0 < columns
  columns_le : columns ≤ 100
  size_rows : ∀ rows, (stmt rows).size = rows.length * columns
  listed_rows : ∀ rows, (stmt rows).listed = rows.map fun r => stmt [r]

instance : RowStmt 14 .insertMessages := ⟨by omega, by omega, fun _ => rfl, fun _ => rfl⟩
instance : RowStmt 5 .insertMemberships := ⟨by omega, by omega, fun _ => rfl, fun _ => rfl⟩
instance : RowStmt 3 .insertKeywords := ⟨by omega, by omega, fun _ => rfl, fun _ => rfl⟩
instance : RowStmt 6 .insertAddresses := ⟨by omega, by omega, fun _ => rfl, fun _ => rfl⟩
instance : RowStmt 8 .insertHeaders := ⟨by omega, by omega, fun _ => rfl, fun _ => rfl⟩
instance : RowStmt 5 .insertBlobRefs := ⟨by omega, by omega, fun _ => rfl, fun _ => rfl⟩
instance : RowStmt 4 .insertExpunged := ⟨by omega, by omega, fun _ => rfl, fun _ => rfl⟩

def Bounded (stmts : List Stmt) : Prop := ∀ s ∈ stmts, s.size ≤ maxParamsPerStatement

section

variable {stmts : List Stmt} {α : Type}

@[simp] theorem bounded_nil : Bounded [] := by simp [Bounded]

@[simp] theorem bounded_cons {s : Stmt} :
    Bounded (s :: stmts) ↔ s.size ≤ maxParamsPerStatement ∧ Bounded stmts := by simp [Bounded]

@[simp] theorem bounded_append {as bs : List Stmt} :
    Bounded (as ++ bs) ↔ Bounded as ∧ Bounded bs := by
  simp only [Bounded, List.forall_mem_append]

@[simp] theorem bounded_map {g : α → Stmt} {xs : List α} :
    Bounded (xs.map g) ↔ ∀ x ∈ xs, (g x).size ≤ maxParamsPerStatement := by simp [Bounded]

@[simp] theorem bounded_flatMap {g : α → List Stmt} {xs : List α} :
    Bounded (xs.flatMap g) ↔ ∀ x ∈ xs, Bounded (g x) := by
  simp only [Bounded, List.forall_mem_flatMap]

theorem bounded_ite {c : Prop} [Decidable c] {as bs : List Stmt} (ha : Bounded as)
    (hb : Bounded bs) : Bounded (if c then as else bs) := by
  split_ifs
  · exact ha
  · exact hb

@[simp] theorem bounded_multiRow {columns : Nat} {stmt : List α → Stmt} [h : RowStmt columns stmt]
    {rows : List α} : Bounded (multiRow columns stmt rows) := by
  have hrows : rowsPerStatement columns * columns ≤ 100 := by
    rw [rowsPerStatement, maxParamsPerStatement,
      Nat.max_eq_right ((Nat.one_le_div_iff h.columns_pos).mpr h.columns_le)]
    exact Nat.div_mul_le_self _ _
  rw [multiRow, bounded_map]
  intro part hpart
  have hpos : 0 < rowsPerStatement columns := Nat.lt_of_lt_of_le Nat.one_pos (le_max_left _ _)
  have hlength := (Table.length_le_of_mem_chunk hpos hpart).1
  rw [h.size_rows]
  exact (Nat.mul_le_mul_right columns hlength).trans hrows

theorem size_part {fixed : Nat} (hfixed : fixed < 100) {xs part : List α}
    (hpart : part ∈ Table.chunk (listSize fixed) xs) :
    part.length + fixed ≤ maxParamsPerStatement := by
  have hsize : listSize fixed = 100 - fixed := rfl
  have hlength := (Table.length_le_of_mem_chunk (by omega) hpart).1
  rw [maxParamsPerStatement]
  omega

end

section

variable (next now : Nat)

theorem bounded_bump (ids : List Id) : Bounded (bumpMessages next ids) := by
  rw [bumpMessages, bounded_map]
  intro part hpart
  exact size_part (by omega) hpart

theorem bounded_delete (ids : List Id) : Bounded (deleteMessageRows ids) := by
  rw [deleteMessageRows, bounded_flatMap]
  intro part hpart
  have hpart := size_part (by omega) hpart
  simp only [bounded_cons, bounded_nil, Stmt.size, and_true]
  omega

theorem bounded_remove (c : KeywordChange) : Bounded c.removeStmts := by
  rw [KeywordChange.removeStmts, bounded_map]
  intro part hpart
  exact size_part (by omega) hpart

theorem bounded_reap (mailboxId : Id) (rows : List (Membership × MessageRow))
    (counts : List (Id × Nat)) : Bounded (reapMessages mailboxId next now rows counts) := by
  simp [reapMessages, bounded_delete, bounded_bump, log, Stmt.size, maxParamsPerStatement]

theorem bounded_appendStmts (u : CaseMap) (group : List Appended) (cursor : List (Id × Nat)) :
    Bounded (appendStmts u next now group cursor) := by
  have hmessage : ∀ a : Appended, Bounded (a.stmts u next now) := by
    intro a
    simp [Appended.stmts, log, Stmt.size, maxParamsPerStatement]
  simp [appendStmts, hmessage, log, Stmt.size, maxParamsPerStatement]

theorem bounded_setKeywords (c : KeywordChange) : Bounded (setKeywordsStmts next now c) := by
  simp [setKeywordsStmts, bounded_remove, keywordStates, log, Stmt.size,
    maxParamsPerStatement]

theorem bounded_setKeywordsBatch (changes : List KeywordChange) :
    Bounded (setKeywordsBatchStmts next now changes) := by
  simp [setKeywordsBatchStmts, bounded_remove, bounded_bump, keywordStates, log,
    Stmt.size, maxParamsPerStatement]

theorem bounded_setDeleted (mailboxId : Id) (deleted : Bool) (targets : List Membership) :
    Bounded (setDeletedStmts next now mailboxId deleted targets) := by
  have huids : ∀ part ∈ Table.chunk (listSize 2) (targets.map (·.uid)),
      part.length + 2 ≤ maxParamsPerStatement := fun _ hpart => size_part (by omega) hpart
  rw [maxParamsPerStatement] at huids
  simpa [setDeletedStmts, bounded_bump, log, Stmt.size, maxParamsPerStatement] using huids

theorem bounded_expunge (mailboxId : Id) (targets : List ExpungeTarget) (counts : List (Id × Nat))
    (seen : List Id) : Bounded (expungeStmts next now mailboxId targets counts seen) := by
  have huids : ∀ part ∈ Table.chunk (listSize 1) (targets.map (·.uid)),
      part.length + 1 ≤ maxParamsPerStatement := fun _ hpart => size_part (by omega) hpart
  rw [maxParamsPerStatement] at huids
  simpa [expungeStmts, bounded_delete, bounded_bump, log, Stmt.size,
    maxParamsPerStatement] using huids

theorem bounded_transfer (fromId toId : Id) (rows : TransferRows) (ids : List Id)
    (transfers : List Transfer) (cursor : Nat) :
    Bounded (transferStmts next now fromId toId rows ids transfers cursor) := by
  simp only [transferStmts, bounded_append, bounded_bump,
    bounded_map, bounded_cons, bounded_nil, log, and_true]
  refine ⟨⟨⟨⟨⟨⟨⟨?_, ?_⟩, ?_⟩, ?_⟩, ?_⟩, ?_⟩, ?_⟩, ?_⟩
  case refine_6 => apply bounded_ite <;> simp [Stmt.size, maxParamsPerStatement]
  case refine_7 => apply bounded_ite <;> simp [Stmt.size, maxParamsPerStatement]
  all_goals simp [Stmt.size, maxParamsPerStatement]

end

section

variable {u : CaseMap} {db : Db} {env : Env} {op : Op} {stmts : List Stmt}

theorem planned_bounded (h : Planned u db env op stmts) : Bounded stmts := by
  cases h with
  | nothing => exact bounded_nil
  | create => simp [createMailboxStmts, log, Stmt.size, maxParamsPerStatement]
  | change => simp [mailboxStmts, log, Stmt.size, maxParamsPerStatement]
  | reapEmpty => simp [Stmt.size, maxParamsPerStatement]
  | reap => simp [bounded_reap, Stmt.size, maxParamsPerStatement]
  | append => exact bounded_appendStmts _ _ _ _ _
  | setKeywords => exact bounded_setKeywords _ _ _
  | setKeywordsBatch => exact bounded_setKeywordsBatch _ _ _
  | setDeleted => exact bounded_setDeleted _ _ _ _ _
  | expunge => exact bounded_expunge _ _ _ _ _ _
  | remove =>
    rw [removeMembershipStmts, bounded_append]
    constructor
    · simp [log, Stmt.size, maxParamsPerStatement]
    · apply bounded_ite <;> simp [deleteMessageRow, log, Stmt.size, maxParamsPerStatement]
  | transfer => exact bounded_transfer _ _ _ _ _ _ _ _
  | destroy => simp [destroyMessageStmts, deleteMessageRow, log, Stmt.size, maxParamsPerStatement]
  | move => simp [moveMessageStmts, log, Stmt.size, maxParamsPerStatement]
  | copy => simp [copyMessageStmts, log, Stmt.size, maxParamsPerStatement]

theorem params_bounded {plan : Plan Unit} (accountId : Id)
    (h : (op.attempt u env).on db = .ok plan) :
    ∀ s ∈ plan.stmts, (s.params accountId env.now).length ≤ maxParamsPerStatement := by
  intro s hs
  exact (s.length_params accountId env.now).trans (planned_bounded (planned h) s hs)

end

def listedRows (stmts : List Stmt) : List Stmt := stmts.flatMap (·.listed)

section

variable {α : Type}

@[simp] theorem listedRows_nil : listedRows [] = [] := rfl

@[simp] theorem listedRows_cons (s : Stmt) (stmts : List Stmt) :
    listedRows (s :: stmts) = s.listed ++ listedRows stmts := rfl

@[simp] theorem listedRows_append (as bs : List Stmt) :
    listedRows (as ++ bs) = listedRows as ++ listedRows bs := List.flatMap_append

theorem listedRows_flatMap (g : α → List Stmt) (xs : List α) :
    listedRows (xs.flatMap g) = xs.flatMap fun x => listedRows (g x) := List.flatMap_assoc

theorem listedRows_map (g : α → Stmt) (xs : List α) :
    listedRows (xs.map g) = xs.flatMap fun x => (g x).listed := List.flatMap_map ..

@[simp] theorem flatMap_none (xs : List α) : (xs.flatMap fun _ => ([] : List Stmt)) = [] := by simp

theorem listedRows_chunk {stmt : List α → Stmt}
    (hlisted : ∀ xs, (stmt xs).listed = xs.map fun x => stmt [x])
    (size : Nat) (xs : List α) :
    listedRows ((Table.chunk size xs).map stmt) = xs.map fun x => stmt [x] := by
  rw [listedRows, List.flatMap_map]
  simp only [hlisted, Table.flatMap_chunk]

@[simp] theorem listedRows_multiRow {columns : Nat} {stmt : List α → Stmt} [h : RowStmt columns stmt]
    (rows : List α) : listedRows (multiRow columns stmt rows) = rows.map fun r => stmt [r] :=
  listedRows_chunk h.listed_rows _ rows

theorem listedRows_bump (next : Nat) (ids : List Id) :
    listedRows (bumpMessages next ids) = ids.map fun id => .setModseq next [id] :=
  listedRows_chunk (fun _ => rfl) _ ids

theorem listedRows_log (next now : Nat) (entity : Entity) (kind : ChangeKind) (ids : List Id) :
    listedRows (ids.map (log next now entity kind)) = [] := by
  rw [listedRows_map]
  exact flatMap_none ids

theorem perm_flatMap_cons {xs : List α} {f : α → Stmt} {g : α → List Stmt} {rest : List Stmt}
    (h : rest.Perm (xs.flatMap g)) : (xs.map f ++ rest).Perm (xs.flatMap fun x => f x :: g x) :=
  (h.append_left _).trans (List.map_append_flatMap_perm xs f g)

theorem listedRows_delete (ids : List Id) :
    (listedRows (deleteMessageRows ids)).Perm (ids.flatMap deleteMessageRow) := by
  have hparts : ∀ parts : List (List Id),
      (parts.flatMap fun part => listedRows [.deleteMessages part, .deleteMessageKeywords part,
        .deleteAddresses part, .deleteHeaders part, .deleteBlobRefs part]).Perm
        (parts.flatten.flatMap deleteMessageRow) := by
    intro parts
    induction parts with
    | nil => exact .nil
    | cons part parts ih =>
      rw [List.flatMap_cons, List.flatten_cons, List.flatMap_append]
      refine .append ?_ ih
      have hlast : (listedRows [.deleteBlobRefs part]).Perm (part.flatMap fun id => [.deleteBlobRefs [id]]) := by
        rw [← List.map_eq_flatMap, listedRows_cons, listedRows_nil, List.append_nil]
        exact .refl _
      exact perm_flatMap_cons (perm_flatMap_cons (perm_flatMap_cons (perm_flatMap_cons hlast)))
  rw [deleteMessageRows, listedRows_flatMap]
  have := hparts (Table.chunk (listSize 1) ids)
  rwa [Table.flatten_chunk] at this

end

section

variable (u : CaseMap) (next now : Nat)

theorem listedRows_remove (c : KeywordChange) :
    listedRows c.removeStmts = c.toRemove.map fun k => .deleteKeywords c.id [k] :=
  listedRows_chunk (fun _ => rfl) _ _

def Appended.rows (a : Appended) : List Stmt :=
  [Stmt.insertBlobRefs [⟨a.input.blobId, a.messageId⟩], Stmt.insertMessages [a.row next]] ++
    (a.input.addresses.map fun x =>
      Stmt.insertAddresses [⟨a.messageId, x.kind, x.pos, x.name, x.email⟩]) ++
    ((a.keywordRows u).map fun k => Stmt.insertKeywords [k]) ++
    (a.input.headerProjections.map fun h =>
      Stmt.insertHeaders [⟨a.messageId, h.occurrence, h.name, h.kind, h.displayValue, h.sortValue,
        h.dateValue, h.addressValue⟩]) ++
    ((a.memberships now).map fun r => Stmt.insertMemberships [r])

theorem listedRows_appended (a : Appended) :
    listedRows (a.stmts u next now) = a.rows u next now := by
  have hrefs : listedRows (a.input.threadRefHashes.eraseDups.map fun h =>
      Stmt.insertThreadRef ⟨h, a.threadId, now⟩) = [] := by
    rw [listedRows_map]
    exact flatMap_none _
  simp only [Appended.stmts, Appended.rows, listedRows_append, hrefs,
    listedRows_multiRow, List.map_map, listedRows_cons, listedRows_nil, log, Stmt.listed,
    List.append_nil]
  rfl

def transferRows (fromId toId : Id) (rows : TransferRows) (transfers : List Transfer) : List Stmt :=
  let leaving := transfers.filterMap (·.leaves)
  let copies := transfers.filterMap (·.copies)
  (leaving.map fun p => Stmt.deleteMemberships fromId [p.2.uid]) ++
    (copies.map fun p => Stmt.insertMessages [copyRow next p]) ++
    (copies.map fun p => Stmt.insertBlobRefs [⟨p.1.blobId, p.2⟩]) ++
    ((copies.flatMap fun p => (rows.keywords.filter fun k => k.messageId = p.1.id).map fun k =>
      (⟨p.2, k.keyword⟩ : Keyword)).map fun k => Stmt.insertKeywords [k]) ++
    ((copies.flatMap fun p => (rows.addresses.filter fun a => a.messageId = p.1.id).map fun a =>
      { a with messageId := p.2 }).map fun a => Stmt.insertAddresses [a]) ++
    ((copies.flatMap fun p => (rows.headers.filter fun h => h.messageId = p.1.id).map fun h =>
      { h with messageId := p.2 }).map fun h => Stmt.insertHeaders [h]) ++
    ((transfers.filterMap (·.enters)).map fun p =>
      Stmt.insertMemberships [⟨toId, p.2.2, p.2.1, now, false⟩]) ++
    (leaving.map fun p => Stmt.insertExpunged [⟨fromId, p.2.uid, next, now⟩]) ++
    ((leaving.map (·.1.id)).eraseDups.map fun id => Stmt.setModseq next [id])

/-- The batches carry every row of their operation once, whatever parts they are cut into. -/
structure Lossless : Prop where
  reap : ∀ (mailboxId : Id) (rows : List (Membership × MessageRow)) (counts : List (Id × Nat)),
    (listedRows (reapMessages mailboxId next now rows counts)).Perm
      ((dyingIds counts (rowIds rows)).flatMap deleteMessageRow ++
        (survivingIds counts (rowIds rows)).map fun id => Stmt.setModseq next [id])
  append : ∀ (group : List Appended) (cursor : List (Id × Nat)),
    listedRows (appendStmts u next now group cursor) = group.flatMap (·.rows u next now)
  setKeywords : ∀ c : KeywordChange,
    listedRows (setKeywordsStmts next now c) =
      (c.toRemove.map fun k => Stmt.deleteKeywords c.id [k]) ++
        (c.rows.map fun k => Stmt.insertKeywords [k]) ++ [Stmt.setModseq next [c.id]]
  setKeywordsBatch : ∀ changes : List KeywordChange,
    listedRows (setKeywordsBatchStmts next now changes) =
      (changes.flatMap fun c => c.toRemove.map fun k => Stmt.deleteKeywords c.id [k]) ++
        ((changes.flatMap (·.rows)).map fun k => Stmt.insertKeywords [k]) ++
        changes.map fun c => Stmt.setModseq next [c.id]
  setDeleted : ∀ (mailboxId : Id) (deleted : Bool) (targets : List Membership),
    listedRows (setDeletedStmts next now mailboxId deleted targets) =
      (targets.map fun r => Stmt.setDeleted deleted mailboxId [r.uid]) ++
        (targets.map (·.messageId)).eraseDups.map fun id => Stmt.setModseq next [id]
  expunge : ∀ (mailboxId : Id) (targets : List ExpungeTarget) (counts : List (Id × Nat))
    (seen : List Id),
    (listedRows (expungeStmts next now mailboxId targets counts seen)).Perm
      ((targets.map fun t => Stmt.deleteMemberships mailboxId [t.uid]) ++
        (targets.map fun t => Stmt.insertExpunged [⟨mailboxId, t.uid, next, now⟩]) ++
        (dyingIds counts (targets.map (·.messageId)).eraseDups).flatMap deleteMessageRow ++
        (survivingIds counts (targets.map (·.messageId)).eraseDups).map fun id =>
          Stmt.setModseq next [id])
  transfer : ∀ (fromId toId : Id) (rows : TransferRows) (ids : List Id)
    (transfers : List Transfer) (cursor : Nat),
    listedRows (transferStmts next now fromId toId rows ids transfers cursor) =
      transferRows next now fromId toId rows transfers

theorem listedRows_transfer (fromId toId : Id) (rows : TransferRows) (ids : List Id)
    (transfers : List Transfer) (cursor : Nat) :
    listedRows (transferStmts next now fromId toId rows ids transfers cursor) =
      transferRows next now fromId toId rows transfers := by
  have hite : ∀ (c : Prop) [Decidable c] (stmts : List Stmt), listedRows stmts = [] →
      listedRows (if c then [] else stmts) = [] := by
    intro c _ stmts hstmts
    split_ifs
    · rfl
    · exact hstmts
  have hleaving : ∀ leaving : List (MessageRow × Membership),
      listedRows (leaving.map fun p => Stmt.deleteMemberships fromId [p.2.uid]) =
        leaving.map fun p => .deleteMemberships fromId [p.2.uid] := by
    intro leaving
    rw [listedRows, List.flatMap_map, List.map_eq_flatMap]
    rfl
  have hlog : ∀ copies : List (MessageRow × Id),
      listedRows (copies.map fun p => log next now .email .created p.2) = [] := by
    intro copies
    rw [listedRows_map]
    exact flatMap_none copies
  simp only [transferStmts, transferRows, listedRows_append, hleaving, hlog, listedRows_log,
    listedRows_bump, listedRows_multiRow, List.map_map]
  rw [hite _ _ rfl, hite _ _ rfl]
  simp only [listedRows_cons, listedRows_nil, Stmt.listed, List.append_nil, List.nil_append]
  rfl

theorem lossless : Lossless u next now where
  reap mailboxId rows counts := by
    simp only [reapMessages, listedRows_append, listedRows_log, listedRows_bump, listedRows_cons,
      listedRows_nil, Stmt.listed, List.append_nil, List.nil_append]
    exact (listedRows_delete _).append_right _
  append group cursor := by
    simp only [appendStmts, listedRows_append, listedRows_flatMap, listedRows_appended, listedRows_map,
      listedRows_cons, listedRows_nil, log, Stmt.listed, flatMap_none, List.append_nil,
      List.nil_append]
  setKeywords c := by
    simp only [setKeywordsStmts, listedRows_append, listedRows_remove, listedRows_multiRow,
      listedRows_flatMap, keywordStates, listedRows_cons, listedRows_nil, log, Stmt.listed,
      flatMap_none, List.map_cons, List.map_nil, List.append_nil, List.nil_append]
  setKeywordsBatch changes := by
    simp only [setKeywordsBatchStmts, listedRows_append, listedRows_remove, listedRows_multiRow,
      listedRows_flatMap, listedRows_bump, listedRows_map, keywordStates, listedRows_cons,
      listedRows_nil, log, Stmt.listed, flatMap_none, List.map_map, List.append_nil, List.nil_append]
    rfl
  setDeleted mailboxId deleted targets := by
    have huids : listedRows ((Table.chunk (listSize 2) (targets.map (·.uid))).map
        (.setDeleted deleted mailboxId)) = (targets.map (·.uid)).map fun uid =>
          .setDeleted deleted mailboxId [uid] := listedRows_chunk (fun _ => rfl) _ _
    simp only [setDeletedStmts, listedRows_append, huids, listedRows_bump, listedRows_log,
      listedRows_cons, listedRows_nil, log, Stmt.listed, List.map_map, List.append_nil,
      List.nil_append]
    rfl
  expunge mailboxId targets counts seen := by
    have huids : listedRows ((Table.chunk (listSize 1) (targets.map (·.uid))).map
        (.deleteMemberships mailboxId)) = (targets.map (·.uid)).map fun uid =>
          .deleteMemberships mailboxId [uid] := listedRows_chunk (fun _ => rfl) _ _
    simp only [expungeStmts, listedRows_append, huids, listedRows_bump, listedRows_log,
      listedRows_multiRow, listedRows_cons, listedRows_nil, log, Stmt.listed, List.map_map,
      List.append_nil, List.nil_append]
    exact ((listedRows_delete _).append_left _).append_right _
  transfer := listedRows_transfer next now

end

end Ionosphere.Store
