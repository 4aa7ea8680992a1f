import Ionosphere.Imap.Types
import Ionosphere.Lib.Schedule
import Ionosphere.Server.Sync
import Ionosphere.Store.Committed

/-! `storeFlags`, the backend of STORE, with other sessions at work between its statements. It
reads the modseqs of the messages, then changes keywords in one batch of the store and
`\Deleted` in another, and then reads the flags back. -/
namespace Ionosphere.Server.ConditionalStore

open Ionosphere.Js Ionosphere.Lib Ionosphere.Store Ionosphere.Imap

abbrev Rows : Type := List (Membership × MessageRow)

structure StoreRequest where
  uids : List Nat
  mode : StoreMode
  flags : List Text
  unchangedSince : Option Nat := none

inductive StoreReply where
  | no
  | flagsUpdated (updated : List MessageFlags) (failed : List Nat)
  deriving DecidableEq

namespace StoreRequest

variable (u : CaseMap) (req : StoreRequest)

def passes (p : Membership × MessageRow) : Bool :=
  match req.unchangedSince with
  | none => true
  | some n => p.2.modseq ≤ n

def sorted (read : Rows) : Rows := read.insertionSort fun p q => p.1.uid ≤ q.1.uid

/-- `rows`: what goes on to the batches. -/
def rows (read : Rows) : Rows := (sorted read).filter req.passes

/-- `failed`: what is reported as modified. -/
def failed (read : Rows) : List Nat := ((sorted read).filter fun p => !req.passes p).map (·.1.uid)

def wantsDeleted : Bool := req.flags.any fun f => toLowerCase u f = "\\deleted".toList

def kwFlags : List Property := req.flags.filterMap (flagToKeyword u)

/-- Each keyword is a text: the batch calls `toLowerCase` on all of them. -/
def plain : Bool := (req.kwFlags u).all fun k => k.text?.isSome

def keywords : List Text := (req.kwFlags u).filterMap Property.text?

def messageIds (read : Rows) : List Id := ((req.rows read).map (·.1.messageId)).eraseDups

/-- The call of `setKeywordsBatch` with texts. -/
def keywordsOp (read : Rows) : Op :=
  .setKeywordsBatch (req.messageIds read) (if req.mode = .remove then [] else req.keywords u)
    (if req.mode = .remove then req.keywords u else []) (req.mode = .set)

/-- What `\Deleted` becomes, if it is touched. -/
def deletedTo : Option Bool :=
  match req.mode with
  | .set => some (req.wantsDeleted u)
  | .add => if req.wantsDeleted u then some true else none
  | .remove => if req.wantsDeleted u then some false else none

/-- The call of `setDeleted`. -/
def deletedOp (b : MailboxRow) (read : Rows) (deleted : Bool) : Op :=
  .setDeleted b.id ((req.rows read).map (·.1.uid)) deleted

end StoreRequest

/-- Between which of its statements a STORE is. -/
inductive Phase where
  | start
  | reading (b : MailboxRow) (parts : List (List Nat)) (read : Rows)
  | keywords (b : MailboxRow) (read : Rows)
  | deleted (b : MailboxRow) (read : Rows)
  | fetching (fetch : Reads (Option (List MessageFlags))) (failed : List Nat)
  | replied (reply : StoreReply)
  | threw (err : StoreError)
  /-- `k.toLowerCase is not a function`. -/
  | typeError

/-- No statement is left. -/
def Phase.ended : Phase → Bool
  | .replied _ | .threw _ | .typeError => true
  | _ => false

structure World where
  db : Db
  phase : Phase := .start

/-- Who stores what: `look` is with the right to write and `lookRead` with that to read, and
`own` tells whether the mailbox is of the session's own account. -/
structure Setup where
  u : CaseMap
  look : Lookup
  lookRead : Lookup
  own : Bool
  req : StoreRequest

inductive Move where
  /-- Another session's batch is accepted. -/
  | other (op : Op) (env : Env)
  | store (env : Env)
  /-- The last attempt of a call was refused. -/
  | giveUp

namespace Setup

variable (c : Setup)

def call (op : Op) (env : Env) (next : Phase) (w : World) : World :=
  match (op.attempt c.u env).on w.db with
  | .error err => { w with phase := .threw err }
  | .ok plan =>
    match batch plan.stmts w.db with
    | some db => ⟨db, next⟩
    | none => w

def fetch (read : Rows) : Phase :=
  .fetching (fetchMessages c.lookRead ((c.req.rows read).map (·.1.uid))) (c.req.failed read)

def advance (env : Env) (w : World) : Option World :=
  match w.phase with
  | .start =>
    match c.look.find w.db with
    | none => some { w with phase := .replied .no }
    | some b =>
      some { w with
        phase := .reading b (Table.chunk (max 1 (maxParamsPerStatement - 1)) c.req.uids) [] }
  | .reading b (part :: parts) read =>
    some { w with
      phase := .reading b parts (read ++
        joinMessages (fun r => r.mailboxId = b.id && part.contains r.uid) w.db) }
  | .reading b [] read =>
    if c.req.rows read = [] then
      some { w with phase := .replied (.flagsUpdated [] (c.req.failed read)) }
    else some { w with phase := .keywords b read }
  | .keywords b read =>
    -- `setKeywordsBatch` is called for the session's account, and finds no message of another's.
    if !c.own then some { w with phase := .deleted b read }
    -- Behind the reads of the batch, and only where it has found a message.
    else if !c.req.plain c.u && w.db.account.active &&
        w.db.messages.any fun m => (c.req.messageIds read).contains m.id then
      some { w with phase := .typeError }
    else some (c.call (c.req.keywordsOp c.u read) env (.deleted b read) w)
  | .deleted b read =>
    match c.req.deletedTo c.u with
    | some deleted => some (c.call (c.req.deletedOp b read deleted) env (c.fetch read) w)
    | none => some { w with phase := c.fetch read }
  | .fetching (.query k) failed => some { w with phase := .fetching (k w.db) failed }
  | .fetching (.throw err) _ => some { w with phase := .threw err }
  | .fetching (.done none) _ => some { w with phase := .replied .no }
  | .fetching (.done (some messages)) failed =>
    some { w with phase := .replied (.flagsUpdated messages failed) }
  | .replied _ | .threw _ | .typeError => none

def step : Move → World → Option World
  | .other op env, w =>
    match (op.attempt c.u env).on w.db with
    | .error _ => none
    | .ok plan => (batch plan.stmts w.db).map fun db => { w with db := db }
  | .store env, w => c.advance env w
  | .giveUp, w =>
    match w.phase with
    | .keywords _ _ | .deleted _ _ => some { w with phase := .threw .conflict }
    | _ => none

end Setup

/-- Nothing of a message is different: its row, its keywords, its memberships. -/
structure SameMessage (db db' : Db) (id : Id) : Prop where
  row : (db'.messages.filter fun m => m.id = id) = db.messages.filter fun m => m.id = id
  keywords : (db'.keywords.filter fun k => k.messageId = id) =
    db.keywords.filter fun k => k.messageId = id
  memberships : (db'.memberships.filter fun r => r.messageId = id) =
    db.memberships.filter fun r => r.messageId = id

/-- The STORE changes nothing of a message with a modseq above `n`. -/
def Spares (c : Setup) (n : Nat) (w : World) : Move → Prop
  | .store env => ∀ w', c.advance env w = some w' → ∀ m ∈ w.db.messages, n < m.modseq →
      SameMessage w.db w'.db m.id
  | _ => True

def Phase.read : Phase → Rows
  | .reading _ _ read | .keywords _ read | .deleted _ read => read
  | _ => []

def Leaves (rows : Rows) (db db' : Db) : Prop :=
  ∀ p ∈ rows, (∀ m ∈ db'.messages, m.id = p.2.id → m ∈ db.messages) ∧
    ∀ r ∈ db'.memberships, r.mailboxId = p.1.mailboxId → r.uid = p.1.uid → r ∈ db.memberships

def Settled (c : Setup) (db : Db) (id : Id) : Prop :=
  let change := batchChange (lowerSet c.u (if c.req.mode = .remove then [] else c.req.keywords c.u))
    (lowerSet c.u (if c.req.mode = .remove then c.req.keywords c.u else [])) (c.req.mode = .set)
    db.keywords db.memberships id
  change.toAdd = [] ∧ change.toRemove = []

/-- Neither call of the store throws: the account and the mailbox are there, and every keyword
is a text. -/
structure Callable (c : Setup) (w : World) : Prop where
  keywords : ∀ b read, w.phase = .keywords b read → c.own = true →
    w.db.account.active = true ∧ c.req.plain c.u = true
  deleted : ∀ b read, w.phase = .deleted b read → c.req.deletedTo c.u ≠ none →
    w.db.account.active = true ∧ (activeMailbox b.id w.db).isSome = true

/-- Others leave alone what the STORE has selected, until its last batch; where it touches
`\Deleted` of a message, its own batch before that does not touch the keywords, or the modseq
of that batch is not above `n`; its calls do not throw and are not given up; and its mailbox is
still there to be read back. -/
def Undisturbed (c : Setup) (n : Nat) (w : World) : Move → Prop
  | .other op env => ∀ w', c.step (.other op env) w = some w' →
      Leaves (c.req.rows w.phase.read) w.db w'.db
  | .store _ =>
    (∀ b read, w.phase = .keywords b read → c.own = true → ∀ deleted,
      c.req.deletedTo c.u = some deleted → ∀ p ∈ c.req.rows read, p.1.deleted ≠ deleted →
        Settled c w.db p.2.id ∨ w.db.account.modseq < n) ∧ Callable c w ∧
    ∀ uids failed, w.phase = .fetching (fetchMessages c.lookRead uids) failed →
      c.lookRead.find w.db ≠ none
  | .giveUp => False

section

variable {u : CaseMap} {env : Env} {db db' : Db}

theorem SameMessage.refl (db : Db) (id : Id) : SameMessage db db id := ⟨rfl, rfl, rfl⟩

theorem sameMessage_of_batch {stmts : List Stmt} {id : Id} (h : batch stmts db = some db')
    (hrow : ¬ Sends (Stmt.Renews id) stmts) (hflags : ¬ Sends (Stmt.Flags id) stmts)
    (hkeep : ∀ r ∈ db.memberships, r.messageId = id →
      ¬ Sends (Stmt.Removes r.mailboxId r.uid) stmts ∧ ¬ Sends (Stmt.Marks r.mailboxId r.uid) stmts)
    (hnew : ∀ r, r.messageId = id → ¬ Sends (Stmt.Inserts r) stmts) : SameMessage db db' id := by
  refine ⟨?_, ?_, ?_⟩
  · rw [batch_messages h, messages_same hrow]
  · rw [batch_keywords h, keywords_stay hflags]
  · rw [batch_memberships h, memberships_same hkeep hnew]

theorem keywordsBatch_sends (next now : Nat) (changes : List KeywordChange) :
    (∀ id, Sends (Stmt.Renews id) (setKeywordsBatchStmts next now changes) → ∃ c ∈ changes, c.id = id) ∧
    (∀ id, Sends (Stmt.Flags id) (setKeywordsBatchStmts next now changes) → ∃ c ∈ changes, c.id = id) ∧
    ∀ s ∈ setKeywordsBatchStmts next now changes, ∀ t, s.onMemberships t = t := by
  refine ⟨fun id => ?_, fun id => ?_, ?_⟩
  · simp only [setKeywordsBatchStmts, KeywordChange.removeStmts, keywordStates, bumpMessages,
      multiRow, sends_append, sends_cons, sends_nil, sends_map, sends_flatMap, log, Stmt.Renews,
      exists_chunk]
    simp
  · simp only [setKeywordsBatchStmts, KeywordChange.removeStmts, keywordStates, bumpMessages,
      multiRow, sends_append, sends_cons, sends_nil, sends_map, sends_flatMap, log, Stmt.Flags,
      exists_chunk_mem]
    simp
    rintro (⟨c, hc, -, hid⟩ | ⟨k, ⟨c, hc, hk⟩, hid⟩)
    · exact ⟨c, hc, hid⟩
    · obtain ⟨x, -, rfl⟩ := List.mem_map.mp hk
      exact ⟨c, hc, hid⟩
  · simp only [setKeywordsBatchStmts, KeywordChange.removeStmts, keywordStates, bumpMessages,
      multiRow, List.forall_mem_append, List.forall_mem_cons, List.forall_mem_map,
      List.forall_mem_flatMap, log]
    simp [Stmt.onMemberships]

theorem deleted_sends (next now : Nat) (mailboxId : Id) (deleted : Bool) (targets : List Membership) :
    (∀ id, Sends (Stmt.Renews id) (setDeletedStmts next now mailboxId deleted targets) →
      ∃ r ∈ targets, r.messageId = id) ∧
    (∀ b uid, Sends (Stmt.Marks b uid) (setDeletedStmts next now mailboxId deleted targets) →
      b = mailboxId ∧ ∃ r ∈ targets, r.uid = uid) ∧
    (∀ id, ¬ Sends (Stmt.Flags id) (setDeletedStmts next now mailboxId deleted targets)) ∧
    (∀ b uid, ¬ Sends (Stmt.Removes b uid) (setDeletedStmts next now mailboxId deleted targets)) ∧
    ∀ r, ¬ Sends (Stmt.Inserts r) (setDeletedStmts next now mailboxId deleted targets) := by
  refine ⟨fun id => ?_, fun b uid => ?_, fun id => ?_, fun b uid => ?_, fun r => ?_⟩
  · simp [setDeletedStmts, log, bumpMessages, exists_chunk]
  · simp [setDeletedStmts, log, bumpMessages, exists_chunk_and]
  all_goals simp [setDeletedStmts, log, bumpMessages]

theorem keywords_commit {ids : List Id} {add remove : List Text} {replace : Bool}
    (h : Commits u (.setKeywordsBatch ids add remove replace) env db db') :
    db'.memberships = db.memberships ∧
      ∀ id, (id ∈ ids → (batchChange (lowerSet u add) (lowerSet u remove) replace db.keywords
          db.memberships id).toAdd = [] ∧ (batchChange (lowerSet u add) (lowerSet u remove) replace
          db.keywords db.memberships id).toRemove = []) → SameMessage db db' id := by
  obtain ⟨plan, hon, hbatch⟩ := h
  have hnothing : plan.stmts = [] → db' = db := by
    intro hnil
    rw [hnil] at hbatch
    cases hbatch
    rfl
  have hcases : plan.stmts = [] ∨ ∃ changes : List KeywordChange,
      (∀ c ∈ changes, c.id ∈ ids ∧ ¬ (c.toAdd = [] ∧ c.toRemove = []) ∧
        c = batchChange (lowerSet u add) (lowerSet u remove) replace db.keywords db.memberships c.id) ∧
      plan.stmts = setKeywordsBatchStmts (db.account.modseq + 1) env.now changes := by
    rw [Op.attempt] at hon
    split at hon
    · cases hon
      exact .inl rfl
    · obtain ⟨p, hp, rfl⟩ := on_stmts.mp hon
      rcases setKeywordsBatch_spec hp with hnil | ⟨changes, -, -, hfrom, hstmts⟩
      · exact .inl hnil
      · exact .inr ⟨changes, hfrom, hstmts⟩
  rcases hcases with hnil | ⟨changes, hfrom, hstmts⟩
  · rw [hnothing hnil]
    exact ⟨rfl, fun id _ => .refl db id⟩
  · obtain ⟨hrenews, hflags, hframe⟩ :=
      keywordsBatch_sends (db.account.modseq + 1) env.now changes
    have hchanged : ∀ id, (id ∈ ids → (batchChange (lowerSet u add) (lowerSet u remove) replace
        db.keywords db.memberships id).toAdd = [] ∧ (batchChange (lowerSet u add) (lowerSet u remove)
        replace db.keywords db.memberships id).toRemove = []) → ¬ ∃ c ∈ changes, c.id = id := by
      rintro id hsettled ⟨c, hc, rfl⟩
      obtain ⟨hin, hsome, heq⟩ := hfrom c hc
      rw [heq] at hsome
      exact hsome (hsettled hin)
    rw [hstmts] at hbatch
    have hmemberships : db'.memberships = db.memberships := by
      rw [batch_memberships hbatch]
      exact across_frame _ hframe _
    refine ⟨hmemberships, fun id hsettled => ⟨?_, ?_, by rw [hmemberships]⟩⟩
    · rw [batch_messages hbatch, messages_same fun hr => hchanged id hsettled (hrenews id hr)]
    · rw [batch_keywords hbatch, keywords_stay fun hf => hchanged id hsettled (hflags id hf)]

theorem deleted_commit {mailboxId : Id} {uids : List Nat} {deleted : Bool} {id : Id}
    (h : Commits u (.setDeleted mailboxId uids deleted) env db db') (hkeyed : Keyed db)
    (hnot : ∀ r ∈ db.memberships, r.mailboxId = mailboxId → r.uid ∈ uids → r.deleted ≠ deleted →
      r.messageId ≠ id) : SameMessage db db' id := by
  obtain ⟨plan, hon, hbatch⟩ := h
  rcases setDeleted_spec hon with hnil | ⟨b, targets, -, htargets, hstmts⟩
  · rw [hnil] at hbatch
    cases hbatch
    exact .refl db id
  · obtain ⟨hrenews, hmarks, hflags, hremoves, hinserts⟩ :=
      deleted_sends (db.account.modseq + 1) env.now mailboxId deleted targets
    have htarget : ∀ r ∈ targets, r.messageId ≠ id := by
      intro r hr
      obtain ⟨hmem, hb, huid, hmark⟩ := (htargets r).mp hr
      exact hnot r hmem hb huid hmark
    rw [hstmts] at hbatch
    refine sameMessage_of_batch hbatch (fun hr => ?_) (hflags id) (fun r hr hid => ?_)
      fun r _ => hinserts r
    · obtain ⟨r, hr, hid⟩ := hrenews id hr
      exact htarget r hr hid
    · refine ⟨hremoves _ _, fun hmark => ?_⟩
      obtain ⟨hb, r', hr', huid⟩ := hmarks _ _ hmark
      obtain ⟨hmem, hb', -⟩ := (htargets r').mp hr'
      have heq : r' = r :=
        List.inj_on_of_nodup_map hkeyed.uid hmem hr (Prod.ext (hb'.trans hb.symm) huid)
      exact htarget r' hr' (heq ▸ hid)

end

theorem mem_rows {req : StoreRequest} {read : Rows} {p : Membership × MessageRow} :
    p ∈ req.rows read ↔ p ∈ read ∧ req.passes p = true := by
  rw [StoreRequest.rows, List.mem_filter, StoreRequest.sorted, List.mem_insertionSort]

/-- A row that was read is as it was, where there still is one. -/
structure Fixed (b : MailboxRow) (db : Db) (p : Membership × MessageRow) : Prop where
  mailbox : p.1.mailboxId = b.id
  same : p.2.id = p.1.messageId
  message : ∀ m ∈ db.messages, m.id = p.2.id → m = p.2
  membership : ∀ r ∈ db.memberships, r.mailboxId = b.id → r.uid = p.1.uid → r = p.1

/-- Between the batches: what is still to be marked has an old modseq. -/
structure Pending (c : Setup) (n : Nat) (b : MailboxRow) (db : Db) (p : Membership × MessageRow) :
    Prop where
  mailbox : p.1.mailboxId = b.id
  same : p.2.id = p.1.messageId
  message : ∀ deleted, c.req.deletedTo c.u = some deleted → p.1.deleted ≠ deleted →
    ∀ m ∈ db.messages, m.id = p.2.id → m.modseq ≤ n
  membership : ∀ r ∈ db.memberships, r.mailboxId = b.id → r.uid = p.1.uid → r = p.1

def Knows (c : Setup) (n : Nat) (w : World) : Prop :=
  Sound w.db ∧ match w.phase with
    | .reading b _ read | .keywords b read => ∀ p ∈ c.req.rows read, Fixed b w.db p
    | .deleted b read => ∀ p ∈ c.req.rows read, Pending c n b w.db p
    | _ => True

section

variable {c : Setup} {n : Nat} {w w' : World} {read : Rows}

theorem Fixed.leaves {b : MailboxRow} {db db' : Db} {p : Membership × MessageRow} (h : Fixed b db p)
    (hleaves : (∀ m ∈ db'.messages, m.id = p.2.id → m ∈ db.messages) ∧
      ∀ r ∈ db'.memberships, r.mailboxId = p.1.mailboxId → r.uid = p.1.uid → r ∈ db.memberships) :
    Fixed b db' p :=
  ⟨h.mailbox, h.same, fun m hm hid => h.message m (hleaves.1 m hm hid) hid,
    fun r hr hb huid => h.membership r (hleaves.2 r hr (hb.trans h.mailbox.symm) huid) hb huid⟩

theorem Pending.leaves {b : MailboxRow} {db db' : Db} {p : Membership × MessageRow}
    (h : Pending c n b db p) (hleaves : (∀ m ∈ db'.messages, m.id = p.2.id → m ∈ db.messages) ∧
      ∀ r ∈ db'.memberships, r.mailboxId = p.1.mailboxId → r.uid = p.1.uid → r ∈ db.memberships) :
    Pending c n b db' p :=
  ⟨h.mailbox, h.same, fun d hd hmark m hm hid => h.message d hd hmark m (hleaves.1 m hm hid) hid,
    fun r hr hb huid => h.membership r (hleaves.2 r hr (hb.trans h.mailbox.symm) huid) hb huid⟩

theorem fixed_of_joined {b : MailboxRow} {db : Db} (hdb : Sound db) {q : Membership → Bool}
    {p : Membership × MessageRow} (hp : p ∈ joinMessages q db)
    (hq : ∀ r, q r = true → r.mailboxId = b.id) : Fixed b db p := by
  obtain ⟨hjoined, htrue⟩ := mem_joinMessages hp
  have hb := hq p.1 htrue
  refine ⟨hb, hjoined.same, fun m hm hid => ?_, fun r hr hrb huid => ?_⟩
  · exact List.inj_on_of_nodup_map hdb.keyed.message hm hjoined.message hid
  · exact hdb.membership_eq hr hjoined.membership (hrb.trans hb.symm) huid

theorem Setup.call_cases (c : Setup) (op : Op) (env : Env) (next : Phase) (w : World) :
    c.call op env next w = w ∨ (∃ err, c.call op env next w = { w with phase := .threw err }) ∨
      ∃ db, Commits c.u op env w.db db ∧ c.call op env next w = ⟨db, next⟩ := by
  rw [Setup.call]
  split
  · exact .inr (.inl ⟨_, rfl⟩)
  · rename_i plan hon
    split
    · rename_i db hbatch
      exact .inr (.inr ⟨db, ⟨plan, hon, hbatch⟩, rfl⟩)
    · exact .inl rfl

theorem mem_keywordsIds {id : Id} (h : id ∈ c.req.messageIds read) :
    ∃ p ∈ c.req.rows read, p.1.messageId = id := by
  rw [StoreRequest.messageIds, List.mem_eraseDups] at h
  exact List.mem_map.mp h

variable (hn : c.req.unchangedSince = some n)
include hn

theorem passes_le {p : Membership × MessageRow} (hp : p ∈ c.req.rows read) :
    p.2.modseq ≤ n := by
  have hpass := (mem_rows.mp hp).2
  rw [StoreRequest.passes, hn] at hpass
  simpa using hpass

theorem Fixed.pending {b : MailboxRow} {db : Db} {p : Membership × MessageRow}
    (h : Fixed b db p) (hp : p ∈ c.req.rows read) : Pending c n b db p := by
  refine ⟨h.mailbox, h.same, fun _ _ _ m hm hid => ?_, h.membership⟩
  rw [h.message m hm hid]
  exact passes_le hn hp

theorem spares_keywords {b : MailboxRow} {env : Env} {db' : Db}
    (hfixed : ∀ p ∈ c.req.rows read, Fixed b w.db p)
    (h : Commits c.u (c.req.keywordsOp c.u read) env w.db db') {m : MessageRow}
    (hm : m ∈ w.db.messages) (hlt : n < m.modseq) : SameMessage w.db db' m.id := by
  refine (keywords_commit h).2 m.id fun hin => ?_
  obtain ⟨p, hp, hid⟩ := mem_keywordsIds hin
  have heq := (hfixed p hp).message m hm (((hfixed p hp).same.trans hid).symm)
  have := passes_le hn hp
  rw [heq] at hlt
  omega

theorem pending_keywords {b : MailboxRow} {env : Env} {db' : Db}
    (hfixed : ∀ p ∈ c.req.rows read, Fixed b w.db p)
    (h : Commits c.u (c.req.keywordsOp c.u read) env w.db db')
    (hok : ∀ deleted, c.req.deletedTo c.u = some deleted → ∀ p ∈ c.req.rows read,
      p.1.deleted ≠ deleted → Settled c w.db p.2.id ∨ w.db.account.modseq < n) :
    ∀ p ∈ c.req.rows read, Pending c n b db' p := by
  intro p hp
  have hp' := hfixed p hp
  obtain ⟨hmemberships, hsame⟩ := keywords_commit h
  refine ⟨hp'.mailbox, hp'.same, fun d hd hmark m hm hid => ?_, ?_⟩
  · rcases hok d hd p hp hmark with hsettled | hroom
    · have hin : m ∈ w.db.messages.filter fun m => m.id = p.2.id := by
        rw [← (hsame p.2.id fun _ => hsettled).row]
        exact List.mem_filter.mpr ⟨hm, by simpa using hid⟩
      rw [hp'.message m (List.mem_filter.mp hin).1 hid]
      exact passes_le hn hp
    · obtain ⟨plan, hon, hbatch⟩ := h
      rcases messages_from (planned hon).stamped hbatch hm with ⟨hold, -⟩ | ⟨hnext, -⟩
      · rw [hp'.message m hold hid]
        exact passes_le hn hp
      · omega
  · rw [hmemberships]
    exact hp'.membership

omit hn in
theorem spares_deleted {b : MailboxRow} {env : Env} {deleted : Bool} {db' : Db}
    (hkeyed : Keyed w.db) (hd : c.req.deletedTo c.u = some deleted)
    (hpending : ∀ p ∈ c.req.rows read, Pending c n b w.db p)
    (h : Commits c.u (c.req.deletedOp b read deleted) env w.db db') {m : MessageRow}
    (hm : m ∈ w.db.messages) (hlt : n < m.modseq) : SameMessage w.db db' m.id := by
  refine deleted_commit h hkeyed fun r hr hb huid hmark hid => ?_
  obtain ⟨p, hp, hpu⟩ := List.mem_map.mp huid
  have hp' := hpending p hp
  have heq := hp'.membership r hr hb hpu.symm
  rw [heq] at hmark hid
  have := hp'.message deleted hd hmark m hm (hid.symm.trans hp'.same.symm)
  omega

omit hn in
theorem spares_same {db : Db} {phase : Phase} (h : w' = ⟨db, phase⟩) :
    ∀ m ∈ db.messages, n < m.modseq → SameMessage db w'.db m.id := by
  intro m _ _
  rw [h]
  exact .refl db m.id

theorem store_step {env : Env} (h : Knows c n w) (hok : Undisturbed c n w (.store env))
    (hstep : c.advance env w = some w') :
    Knows c n w' ∧ ∀ m ∈ w.db.messages, n < m.modseq → SameMessage w.db w'.db m.id := by
  obtain ⟨db, phase⟩ := w
  obtain ⟨hdb, hknows⟩ := h
  obtain ⟨hboth, -⟩ := hok
  dsimp only at hdb hknows hboth ⊢
  cases phase with
  | start =>
    simp only [Setup.advance] at hstep
    split at hstep
    · cases hstep
      exact ⟨⟨hdb, trivial⟩, spares_same rfl⟩
    · cases hstep
      refine ⟨⟨hdb, fun p hp => ?_⟩, spares_same rfl⟩
      cases (mem_rows.mp hp).1
  | reading b parts read =>
    cases parts with
    | nil =>
      simp only [Setup.advance] at hstep
      split at hstep
      · cases hstep
        exact ⟨⟨hdb, trivial⟩, spares_same rfl⟩
      · cases hstep
        exact ⟨⟨hdb, hknows⟩, spares_same rfl⟩
    | cons part parts =>
      cases hstep
      refine ⟨⟨hdb, fun p hp => ?_⟩, spares_same rfl⟩
      obtain ⟨hp, hpass⟩ := mem_rows.mp hp
      rcases List.mem_append.mp hp with hold | hnew
      · exact hknows p (mem_rows.mpr ⟨hold, hpass⟩)
      · exact fixed_of_joined hdb hnew fun r hr => by simpa using (Bool.and_eq_true_iff.mp hr).1
  | keywords b read =>
    simp only [Setup.advance] at hstep
    split_ifs at hstep with hother hthrows
    · cases hstep
      exact ⟨⟨hdb, fun p hp => (hknows p hp).pending hn hp⟩, spares_same rfl⟩
    · cases hstep
      exact ⟨⟨hdb, trivial⟩, spares_same rfl⟩
    · have hown : c.own = true := by simpa using hother
      cases hstep
      rcases c.call_cases (c.req.keywordsOp c.u read) env (.deleted b read) ⟨db, .keywords b read⟩
        with heq | ⟨err, heq⟩ | ⟨db', hcommit, heq⟩
      · rw [heq]
        exact ⟨⟨hdb, hknows⟩, spares_same rfl⟩
      · rw [heq]
        exact ⟨⟨hdb, trivial⟩, spares_same rfl⟩
      · rw [heq]
        refine ⟨⟨hdb.commits hcommit, ?_⟩, fun m hm hlt => ?_⟩
        · exact pending_keywords hn (w := ⟨db, .keywords b read⟩) hknows hcommit
            (hboth b read rfl hown)
        · exact spares_keywords hn (w := ⟨db, .keywords b read⟩) hknows hcommit hm hlt
  | deleted b read =>
    simp only [Setup.advance] at hstep
    split at hstep
    · rename_i deleted hd
      cases hstep
      rcases c.call_cases (c.req.deletedOp b read deleted) env (c.fetch read) ⟨db, .deleted b read⟩
        with heq | ⟨err, heq⟩ | ⟨db', hcommit, heq⟩
      · rw [heq]
        exact ⟨⟨hdb, hknows⟩, spares_same rfl⟩
      · rw [heq]
        exact ⟨⟨hdb, trivial⟩, spares_same rfl⟩
      · rw [heq]
        refine ⟨⟨hdb.commits hcommit, trivial⟩, fun m hm hlt => ?_⟩
        exact spares_deleted (w := ⟨db, .deleted b read⟩) hdb.keyed hd hknows hcommit hm hlt
    · cases hstep
      exact ⟨⟨hdb, trivial⟩, spares_same rfl⟩
  | fetching fetch failed =>
    cases fetch with
    | done found =>
      cases found with
      | none =>
        cases hstep
        exact ⟨⟨hdb, trivial⟩, spares_same rfl⟩
      | some messages =>
        cases hstep
        exact ⟨⟨hdb, trivial⟩, spares_same rfl⟩
    | throw err =>
      cases hstep
      exact ⟨⟨hdb, trivial⟩, spares_same rfl⟩
    | query k =>
      cases hstep
      exact ⟨⟨hdb, trivial⟩, spares_same rfl⟩
  | _ => cases hstep

theorem knows_step {m : Move} (h : Knows c n w) (hok : Undisturbed c n w m)
    (hstep : c.step m w = some w') : Knows c n w' := by
  cases m with
  | store env => exact (store_step hn h hok hstep).1
  | other op env =>
    have hleaves := hok w' hstep
    rw [Setup.step] at hstep
    split at hstep
    · cases hstep
    · rename_i plan hon
      obtain ⟨db', hbatch, rfl⟩ := Option.map_eq_some_iff.mp hstep
      refine ⟨h.1.commits ⟨plan, hon, hbatch⟩, ?_⟩
      have hknows := h.2
      dsimp only
      cases hphase : w.phase with
      | reading b parts read =>
        rw [hphase] at hknows hleaves
        exact fun p hp => (hknows p hp).leaves (hleaves p hp)
      | keywords b read =>
        rw [hphase] at hknows hleaves
        exact fun p hp => (hknows p hp).leaves (hleaves p hp)
      | deleted b read =>
        rw [hphase] at hknows hleaves
        exact fun p hp => (hknows p hp).leaves (hleaves p hp)
      | _ => trivial
  | giveUp => exact absurd hok id

theorem knows_spares {m : Move} (h : Knows c n w) (hok : Undisturbed c n w m) : Spares c n w m := by
  cases m with
  | store env => exact fun w' hstep => (store_step hn h hok hstep).2
  | _ => trivial

end

/-- Whatever they are answered, these reads end well, with such a result. -/
def Ends {α : Type} (P : α → Prop) : Reads α → Prop
  | .done a => P a
  | .throw _ => False
  | .query k => ∀ db, Ends P (k db)

theorem ends_bind {α β : Type} {P : α → Prop} {Q : β → Prop} {x : Reads β} {f : β → Reads α}
    (hx : Ends Q x) (hf : ∀ b, Q b → Ends P (f b)) : Ends P (x >>= f) := by
  change Ends P (x.bind f)
  induction x with
  | done b => exact hf b hx
  | throw err => exact absurd hx id
  | query k ih => exact fun db => ih db (hx db)

theorem ends_select {α : Type} (read : Db → α) : Ends (fun _ => True) (Reads.select read) :=
  fun _ => trivial

theorem ends_queryInChunks {ι ρ : Type} (fixed : Nat) (items : List ι)
    (read : List ι → Db → List ρ) : Ends (fun _ => True) (queryInChunks fixed items read) := by
  have hparts : ∀ parts : List (List ι), Ends (fun _ => True) (readParts read parts) := by
    intro parts
    induction parts with
    | nil => trivial
    | cons part parts ih =>
      exact ends_bind (ends_select _) fun rows _ => ends_bind ih fun more _ => trivial
  exact hparts _

theorem ends_fetchMessages {look : Lookup} {uids : List Nat} {db : Db}
    (hfind : look.find db ≠ none) {k : Db → Reads (Option (List MessageFlags))}
    (hk : fetchMessages look uids = .query k) : Ends (fun found => found ≠ none) (k db) := by
  obtain ⟨b, hb⟩ := Option.ne_none_iff_exists'.mp hfind
  rw [fetchMessages] at hk
  injection hk with hk
  subst hk
  change Ends _ (Reads.bind (Reads.done (look.find db)) _)
  rw [hb, Reads.bind]
  dsimp only
  split
  · exact Option.some_ne_none _
  · refine ends_bind (ends_queryInChunks _ _ _) fun read _ => ?_
    split
    · exact Option.some_ne_none _
    · exact ends_bind (ends_queryInChunks _ _ _) fun keywords _ => Option.some_ne_none _

/-- A STORE that has read `read`, and what it will report of it. -/
def Reports (c : Setup) (read : Rows) (w : World) : Prop :=
  match w.phase with
  | .start => False
  | .reading _ parts read' => parts = [] ∧ read' = read
  | .keywords _ read' | .deleted _ read' => read' = read
  | .fetching fetch failed => failed = c.req.failed read ∧
      (Ends (fun found => found ≠ none) fetch ∨ ∃ uids, fetch = fetchMessages c.lookRead uids)
  | .replied reply => ∃ messages, reply = .flagsUpdated messages (c.req.failed read)
  | .threw _ | .typeError => False

section

variable {c : Setup} {n : Nat} {w w' : World} {read : Rows}

theorem mem_failed (hn : c.req.unchangedSince = some n) (uid : Nat) :
    uid ∈ c.req.failed read ↔ ∃ p ∈ read, p.1.uid = uid ∧ n < p.2.modseq := by
  simp only [StoreRequest.failed, StoreRequest.sorted, StoreRequest.passes, hn, List.mem_map,
    List.mem_filter, List.mem_insertionSort, Bool.not_eq_true', decide_eq_false_iff_not, not_le]
  constructor
  · rintro ⟨p, ⟨hp, hlt⟩, huid⟩
    exact ⟨p, hp, huid, hlt⟩
  · rintro ⟨p, hp, huid, hlt⟩
    exact ⟨p, ⟨hp, hlt⟩, huid⟩

theorem reports_fetch (b : Rows) (hb : b = read) {db : Db} : Reports c read ⟨db, c.fetch b⟩ := by
  subst hb
  exact ⟨rfl, .inr ⟨_, rfl⟩⟩

theorem on_ok_keywords {u : CaseMap} {db : Db} (hactive : db.account.active = true) (env : Env)
    (ids : List Id) (add remove : List Text) (replace : Bool) :
    ∃ plan, ((Op.setKeywordsBatch ids add remove replace).attempt u env).on db = .ok plan := by
  rw [Op.attempt]
  split_ifs
  · exact ⟨_, rfl⟩
  · obtain ⟨plan, hplan⟩ :
        ∃ plan, (setKeywordsBatchAttempt u ids add remove replace env).on db = .ok plan := by
      simp only [setKeywordsBatchAttempt, on_mustGetAccount, hactive, true_and, on_chunks_bind]
      split_ifs
      · exact ⟨_, rfl⟩
      · simp only [on_chunks_bind]
        split_ifs <;> exact ⟨_, rfl⟩
    exact ⟨_, on_stmts.mpr ⟨plan, hplan, rfl⟩⟩

theorem on_ok_deleted {u : CaseMap} {db : Db} (hactive : db.account.active = true) {mailboxId : Id}
    (hbox : (activeMailbox mailboxId db).isSome = true) (env : Env) (uids : List Nat) (deleted : Bool) :
    ∃ plan, ((Op.setDeleted mailboxId uids deleted).attempt u env).on db = .ok plan := by
  simp only [Op.attempt, setDeletedAttempt, on_mustGetAccount, hactive, true_and]
  split_ifs
  · exact ⟨_, rfl⟩
  · simp only [Reads.on_select_bind, Reads.on_check, hbox, true_and, on_chunks_bind]
    split_ifs <;> exact ⟨_, rfl⟩

theorem Setup.call_of_ok (c : Setup) (op : Op) (env : Env) (next : Phase) (w : World)
    (h : ∃ plan, (op.attempt c.u env).on w.db = .ok plan) :
    c.call op env next w = w ∨ ∃ db, c.call op env next w = ⟨db, next⟩ := by
  obtain ⟨plan, hon⟩ := h
  rw [Setup.call, hon]
  dsimp only
  split
  · exact .inr ⟨_, rfl⟩
  · exact .inl rfl

theorem reports_store {env : Env} (h : Reports c read w) (hok : Undisturbed c n w (.store env))
    (hstep : c.advance env w = some w') : Reports c read w' := by
  obtain ⟨db, phase⟩ := w
  obtain ⟨-, hcall, hfind⟩ := hok
  dsimp only at hfind
  cases phase with
  | start => exact absurd h id
  | reading b parts read' =>
    obtain ⟨rfl, rfl⟩ : parts = [] ∧ read' = read := h
    simp only [Setup.advance] at hstep
    split at hstep
    · cases hstep
      exact ⟨_, rfl⟩
    · cases hstep
      exact rfl
  | keywords b read' =>
    obtain rfl : read' = read := h
    simp only [Setup.advance] at hstep
    split_ifs at hstep with hother hthrows
    · cases hstep
      exact rfl
    · obtain ⟨-, hplain⟩ := hcall.keywords b read' rfl (by simpa using hother)
      simp [hplain] at hthrows
    · obtain ⟨hactive, -⟩ := hcall.keywords b read' rfl (by simpa using hother)
      cases hstep
      rcases c.call_of_ok (c.req.keywordsOp c.u read') env (.deleted b read') ⟨db, .keywords b read'⟩
        (on_ok_keywords hactive env _ _ _ _) with heq | ⟨db', heq⟩
      · rw [heq]
        exact rfl
      · rw [heq]
        exact rfl
  | deleted b read' =>
    obtain rfl : read' = read := h
    simp only [Setup.advance] at hstep
    split at hstep
    · rename_i deleted hd
      obtain ⟨hactive, hbox⟩ := hcall.deleted b read' rfl (by simp [hd])
      cases hstep
      rcases c.call_of_ok (c.req.deletedOp b read' deleted) env (c.fetch read') ⟨db, .deleted b read'⟩
        (on_ok_deleted hactive hbox env _ _) with heq | ⟨db', heq⟩
      · rw [heq]
        exact rfl
      · rw [heq]
        exact reports_fetch _ rfl
    · cases hstep
      exact reports_fetch _ rfl
  | fetching fetch failed =>
    obtain ⟨rfl, hends⟩ := h
    cases fetch with
    | done found =>
      have hfound : found ≠ none := by
        rcases hends with hends | ⟨uids, hfetch⟩
        · exact hends
        · rw [fetchMessages] at hfetch
          cases hfetch
      obtain ⟨messages, rfl⟩ := Option.ne_none_iff_exists'.mp hfound
      cases hstep
      exact ⟨messages, rfl⟩
    | throw err =>
      rcases hends with hends | ⟨uids, hfetch⟩
      · exact absurd hends id
      · rw [fetchMessages] at hfetch
        cases hfetch
    | query k =>
      cases hstep
      refine ⟨rfl, .inl ?_⟩
      rcases hends with hends | ⟨uids, hfetch⟩
      · exact hends db
      · rw [hfetch] at hfind
        exact ends_fetchMessages (hfind uids _ rfl) hfetch.symm
  | _ => cases hstep

theorem reports_step {m : Move} (h : Reports c read w) (hok : Undisturbed c n w m)
    (hstep : c.step m w = some w') : Reports c read w' := by
  cases m with
  | store env => exact reports_store h hok hstep
  | other op env =>
    rw [Setup.step] at hstep
    split at hstep
    · cases hstep
    · obtain ⟨db', -, rfl⟩ := Option.map_eq_some_iff.mp hstep
      exact h
  | giveUp => exact absurd hok id

theorem Reports.replied (h : Reports c read w) (hended : w.phase.ended = true) :
    ∃ messages, w.phase = .replied (.flagsUpdated messages (c.req.failed read)) := by
  rw [Reports] at h
  cases hphase : w.phase with
  | replied reply =>
    rw [hphase] at h
    obtain ⟨messages, rfl⟩ := h
    exact ⟨messages, rfl⟩
  | threw err => simp [hphase] at h
  | typeError => simp [hphase] at h
  | _ => simp [hphase, Phase.ended] at hended

end

def testSetup : Setup where
  u := ⟨id, id⟩
  look := .byId ['i']
  lookRead := .byId ['i']
  own := true
  req := { uids := [1], mode := .add, flags := ["\\Seen".toList], unchangedSince := some 1 }

def testEnv (c : Char) : Env := ⟨0, fun j => [c, Char.ofNat (97 + j)]⟩

def testRead : List Move :=
  [.other (.appendMessages [{ mailboxIds := [['i']], blobId := ['b'], sizeBytes := 5, receivedAt := 0 }])
      (testEnv 'a'), .store (testEnv 'b'), .store (testEnv 'b'), .store (testEnv 'b')]

def testStart : World := ⟨newAccount ['a'] ['i'] 0 0, .start⟩

def testQuiet (w : World) : Move → Bool
  | .other _ _ => match w.phase with
    | .start => true
    | _ => false
  | .store _ => (testSetup.lookRead.find w.db).isSome && w.db.account.active
  | .giveUp => false

theorem undisturbed_of_quiet {w : World} {m : Move} (h : testQuiet w m = true) :
    Undisturbed testSetup 1 w m := by
  cases m with
  | other op env =>
    intro w' _ p hp
    rw [testQuiet] at h
    split at h
    · rename_i hphase
      rw [hphase] at hp
      cases (mem_rows.mp hp).1
    · cases h
  | store env =>
    obtain ⟨hsome, hactive⟩ := Bool.and_eq_true_iff.mp h
    have hnot : testSetup.req.deletedTo testSetup.u = none := by decide
    refine ⟨fun b read _ _ deleted hd => ?_, ⟨fun b read _ _ => ⟨hactive, by decide⟩,
      fun b read _ hne => absurd hnot hne⟩, fun uids failed _ hnone => ?_⟩
    · cases hnot.symm.trans hd
    · rw [hnone] at hsome
      cases hsome
  | giveUp => cases h

end Ionosphere.Server.ConditionalStore
