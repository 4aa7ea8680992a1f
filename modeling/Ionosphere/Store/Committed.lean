import Ionosphere.Store.Footprint

/-! What every planned batch observes, whatever the operation: a membership that goes leaves
a tombstone, one that comes has a new uid, and what a client can see of a message does not
change without its modseq. -/
namespace Ionosphere.Store

open Ionosphere.Js Ionosphere.Lib

variable {b : MailboxRow} {stmts : List Stmt} {id : Id} {rows : List (Membership × MessageRow)}
  {r : Membership}

-- No row type is empty, and looking for an instance that says so is slow.
attribute [-simp] IsEmpty.exists_iff IsEmpty.forall_iff

/-- Mailboxes come and go with their tombstones. -/
structure Houses (db : Db) (stmts : List Stmt) : Prop where
  cleared : ∀ b, Sends (Stmt.Clears b) stmts ↔ Sends (Stmt.Closes b) stmts
  /-- A mailbox that is closed was deleted before, and nothing else happens. -/
  closed : ∀ b, Sends (Stmt.Closes b) stmts →
    (∃ row ∈ db.mailboxes, row.id = b ∧ row.status = .deleted) ∧ ¬ Sends (Stmt.Sets b) stmts ∧
    (∀ r ∈ db.memberships, r.mailboxId = b → Sends (Stmt.Removes b r.uid) stmts) ∧
    (∀ r, ¬ Sends (Stmt.Inserts r) stmts) ∧ (∀ x, ¬ Sends (Stmt.Buries x) stmts) ∧
    ∀ row, ¬ Sends (Stmt.Opens row) stmts
  opened : ∀ row, Sends (Stmt.Opens row) stmts → db.account.uidvalidityLast < row.uidvalidity ∧
    (∃ v, Sends (Stmt.Ages v) stmts) ∧ (∀ v, Sends (Stmt.Ages v) stmts → v = row.uidvalidity) ∧
    (∀ b n, ¬ Sends (Stmt.Advances b n) stmts) ∧ ∀ row', Sends (Stmt.Opens row') stmts → row' = row
  aged : ∀ v, Sends (Stmt.Ages v) stmts → db.account.uidvalidityLast < v

/-- Memberships go with a tombstone and come with a new uid. -/
structure Places (db : Db) (next : Nat) (stmts : List Stmt) : Prop where
  buried : ∀ b uid, Sends (Stmt.Removes b uid) stmts →
    Sends (Stmt.Closes b) stmts ∨ ∃ now, Sends (Stmt.Buries ⟨b, uid, next, now⟩) stmts
  removed : ∀ x, Sends (Stmt.Buries x) stmts → Sends (Stmt.Removes x.mailboxId x.uid) stmts ∧
    ∃ r ∈ db.memberships, r.mailboxId = x.mailboxId ∧ r.uid = x.uid
  inserted : ∀ r, Sends (Stmt.Inserts r) stmts →
    (∃ b ∈ db.mailboxes, b.id = r.mailboxId ∧ b.uidnext ≤ r.uid) ∧
    (∃ n, Sends (Stmt.Advances r.mailboxId n) stmts) ∧
    ∀ n, Sends (Stmt.Advances r.mailboxId n) stmts → r.uid < n
  advanced : ∀ b ∈ db.mailboxes, ∀ n, Sends (Stmt.Advances b.id n) stmts → b.uidnext ≤ n

/-- Nothing a client sees of a message changes without its modseq. -/
structure Renewals (db : Db) (stmts : List Stmt) : Prop where
  /-- A message that enters a mailbox is there, and its modseq is new. -/
  entered : ∀ r, Sends (Stmt.Inserts r) stmts → Sends (Stmt.Renews r.messageId) stmts ∧
    ¬ Sends (Stmt.Destroys r.messageId) stmts ∧
    ((∃ m ∈ db.messages, m.id = r.messageId) ∨ ∃ m, Sends (Stmt.Adds m) stmts ∧ m.id = r.messageId)
  destroyed : ∀ r ∈ db.memberships, Sends (Stmt.Destroys r.messageId) stmts →
    Sends (Stmt.Removes r.mailboxId r.uid) stmts
  flagged : ∀ id, Sends (Stmt.Flags id) stmts → Sends (Stmt.Renews id) stmts
  marked : ∀ r ∈ db.memberships, Sends (Stmt.Marks r.mailboxId r.uid) stmts →
    Sends (Stmt.Renews r.messageId) stmts

structure Observes (db : Db) (next : Nat) (stmts : List Stmt) : Prop where
  houses : Houses db stmts
  places : Places db next stmts
  renewals : Renewals db stmts
  /-- What gets the new modseq counts it. -/
  counted : Sends Stmt.Counts stmts ∨ (∀ id, ¬ Sends (Stmt.Renews id) stmts) ∧
    (∀ x, ¬ Sends (Stmt.Buries x) stmts) ∧ ∀ row, ¬ Sends (Stmt.Logs row) stmts

theorem sends_of_all {P Q : Stmt → Prop} (h : ∀ s ∈ stmts, Q s)
    (hPQ : ∀ s, Q s → ¬ P s) : ¬ Sends P stmts :=
  fun ⟨s, hs, hP⟩ => hPQ s (h s hs) hP

theorem counts_last (stmts : List Stmt) (set : AccountSet) :
    Sends Stmt.Counts (stmts ++ [Stmt.updateAccount set]) :=
  ⟨_, List.mem_append_right _ List.mem_cons_self, trivial⟩

@[simp] def Stmt.Stays : Stmt → Prop
  | insertMailbox _ => False
  | deleteMailbox _ => False
  | deleteExpunged _ => False
  | updateAccount set => set.uidvalidityLast = none
  | _ => True

theorem houses_of_stays (db : Db) (h : ∀ s ∈ stmts, s.Stays) :
    Houses db stmts := by
  have hclears : ∀ b, ¬ Sends (Stmt.Clears b) stmts := by
    intro b
    refine sends_of_all h fun s hs => ?_
    cases s with
    | deleteExpunged mailboxId => exact fun _ => hs
    | _ => exact id
  have hcloses : ∀ b, ¬ Sends (Stmt.Closes b) stmts := by
    intro b
    refine sends_of_all h fun s hs => ?_
    cases s with
    | deleteMailbox id => exact fun _ => hs
    | _ => exact id
  have hopens : ∀ row, ¬ Sends (Stmt.Opens row) stmts := by
    intro row
    refine sends_of_all h fun s hs => ?_
    cases s with
    | insertMailbox row' => exact fun _ => hs
    | _ => exact id
  have hages : ∀ v, ¬ Sends (Stmt.Ages v) stmts := by
    intro v
    refine sends_of_all h fun s hs => ?_
    cases s with
    | updateAccount set => exact fun hv => by cases hs.symm.trans hv
    | _ => exact id
  exact ⟨fun b => iff_of_false (hclears b) (hcloses b), fun b hb => absurd hb (hcloses b),
    fun row hrow => absurd hrow (hopens row), fun v hv => absurd hv (hages v)⟩

@[simp] def Stmt.Still : Stmt → Prop
  | deleteMemberships _ _ => False
  | deleteMailboxMemberships _ => False
  | insertMemberships _ => False
  | insertExpunged _ => False
  | updateMailbox _ set => set.uidnext = none
  | deleteMessages _ => False
  | _ => True

section

variable {db : Db} (h : ∀ s ∈ stmts, s.Still)
include h

theorem places_of_still (next : Nat) : Places db next stmts := by
  have hremoves : ∀ b uid, ¬ Sends (Stmt.Removes b uid) stmts := by
    intro b uid
    refine sends_of_all h fun s hs => ?_
    cases s with
    | deleteMemberships mailboxId uids => exact fun _ => hs
    | deleteMailboxMemberships mailboxId => exact fun _ => hs
    | _ => exact id
  have hburies : ∀ x, ¬ Sends (Stmt.Buries x) stmts := by
    intro x
    refine sends_of_all h fun s hs => ?_
    cases s with
    | insertExpunged rows => exact fun _ => hs
    | _ => exact id
  have hinserts : ∀ r, ¬ Sends (Stmt.Inserts r) stmts := by
    intro r
    refine sends_of_all h fun s hs => ?_
    cases s with
    | insertMemberships rows => exact fun _ => hs
    | _ => exact id
  have hadvances : ∀ b n, ¬ Sends (Stmt.Advances b n) stmts := by
    intro b n
    refine sends_of_all h fun s hs => ?_
    cases s with
    | updateMailbox id set => exact fun hn => by cases hs.symm.trans hn.2
    | _ => exact id
  exact ⟨fun b uid hb => absurd hb (hremoves b uid), fun x hx => absurd hx (hburies x),
    fun r hr => absurd hr (hinserts r), fun b _ n hn => absurd hn (hadvances b.id n)⟩

theorem renewals_of_still (hflagged : ∀ id, Sends (Stmt.Flags id) stmts → Sends (Stmt.Renews id) stmts)
    (hmarked : ∀ r ∈ db.memberships, Sends (Stmt.Marks r.mailboxId r.uid) stmts →
      Sends (Stmt.Renews r.messageId) stmts) : Renewals db stmts := by
  have hinserts : ∀ r, ¬ Sends (Stmt.Inserts r) stmts := by
    intro r
    refine sends_of_all h fun s hs => ?_
    cases s with
    | insertMemberships rows => exact fun _ => hs
    | _ => exact id
  have hdestroys : ∀ m, ¬ Sends (Stmt.Destroys m) stmts := by
    intro m
    refine sends_of_all h fun s hs => ?_
    cases s with
    | deleteMessages ids => exact fun _ => hs
    | _ => exact id
  exact ⟨fun r hr => absurd hr (hinserts r), fun r _ hr => absurd hr (hdestroys _), hflagged, hmarked⟩

end

def Attached (db : Db) : Prop := ∀ r ∈ db.memberships, ∃ m ∈ db.messages, m.id = r.messageId

section

variable {db : Db} {next now : Nat} {u : CaseMap}

theorem create_observes {uidvalidity : Nat} (id parentId : Id) (name : Text) (role : Option Text)
    (hfresh : db.account.uidvalidityLast < uidvalidity) :
    Observes db next (createMailboxStmts next now uidvalidity id parentId name role) := by
  have hstill : ∀ s ∈ createMailboxStmts next now uidvalidity id parentId name role, s.Still := by
    simp [createMailboxStmts, log]
  refine ⟨?_, places_of_still hstill next, renewals_of_still hstill ?_ ?_, ?_⟩
  · constructor <;> simp [createMailboxStmts, log, hfresh]
  · simp [createMailboxStmts, log]
  · simp [createMailboxStmts, log]
  · simp [createMailboxStmts, log]

theorem change_observes (id : Id) (set : MailboxSet) (kind : ChangeKind) (h : set.uidnext = none) :
    Observes db next (mailboxStmts next now id set kind) := by
  have hstill : ∀ s ∈ mailboxStmts next now id set kind, s.Still := by simp [mailboxStmts, log, h]
  refine ⟨houses_of_stays db ?_, places_of_still hstill next, renewals_of_still hstill ?_ ?_, ?_⟩
  · simp [mailboxStmts, log]
  · simp [mailboxStmts, log]
  · simp [mailboxStmts, log]
  · simp [mailboxStmts, log]

theorem deletedMailbox_spec (h : deletedMailbox id db = some b) :
    b ∈ db.mailboxes ∧ b.id = id ∧ b.status = .deleted := by
  have hp := List.find?_some h
  exact ⟨List.mem_of_find?_eq_some h, by simpa using hp⟩

theorem reapRows_nil (hattached : Attached db) {b : Id} (hrows : reapRows b db = []) :
    ∀ r ∈ db.memberships, r.mailboxId ≠ b := by
  intro r hr hb
  obtain ⟨m, hm, hid⟩ := hattached r hr
  have hsome : (messageOf db r.messageId).isSome :=
    List.find?_isSome.mpr ⟨m, hm, by simpa using hid⟩
  obtain ⟨m', hm'⟩ := Option.isSome_iff_exists.mp hsome
  have hin : (r, m') ∈ reapRows b db := by
    rw [reapRows, joinMessages, List.mem_filterMap]
    exact ⟨r, List.mem_filter.mpr ⟨hr, by simpa using hb⟩, by rw [hm', Option.map_some]⟩
  rw [hrows] at hin
  cases hin

theorem reapEmpty_observes (hattached : Attached db)
    (hb : deletedMailbox b.id db = some b) (hrows : reapRows b.id db = []) :
    Observes db next [Stmt.deleteExpunged b.id, .deleteMailbox b.id] := by
  obtain ⟨hmem, -, hstatus⟩ := deletedMailbox_spec hb
  have hnone := reapRows_nil hattached hrows
  refine ⟨?_, by constructor <;> simp, by constructor <;> simp, by simp⟩
  constructor <;> simp
  case closed => exact ⟨⟨b, hmem, rfl, hstatus⟩, hnone⟩

theorem only_membership {r r' : Membership} (hr : r ∈ db.memberships) (hr' : r' ∈ db.memberships)
    (hsame : r'.messageId = r.messageId)
    (hcount : (db.memberships.countP fun x => x.messageId = r.messageId) ≤ 1) : r' = r := by
  rw [List.countP_eq_length_filter] at hcount
  have hin : ∀ x ∈ db.memberships, x.messageId = r.messageId →
      x ∈ db.memberships.filter fun x => x.messageId = r.messageId :=
    fun x hx hid => List.mem_filter.mpr ⟨hx, by simpa using hid⟩
  cases hrows : db.memberships.filter fun x => x.messageId = r.messageId with
  | nil => simpa [hrows] using hin r hr rfl
  | cons x rest =>
    have hrest : rest = [] := by
      rw [hrows, List.length_cons] at hcount
      exact List.eq_nil_of_length_eq_zero (by omega)
    rw [hrows, hrest] at hin
    rw [List.mem_singleton.mp (hin r hr rfl), List.mem_singleton.mp (hin r' hr' hsame)]

theorem dying_only (hrows : ∀ p ∈ rows, JoinedRow db p) (hr : r ∈ db.memberships)
    (hdying : r.messageId ∈ dyingIds (readAll 0 (rowIds rows) membershipCounts db) (rowIds rows)) :
    ∃ p ∈ rows, p.1 = r := by
  rw [dyingIds, List.mem_filter, decide_eq_true_eq] at hdying
  rw [countOf_readAll _ _ hdying.1] at hdying
  have hin := hdying.1
  rw [rowIds, List.mem_eraseDups, List.mem_map] at hin
  obtain ⟨p, hp, hid⟩ := hin
  refine ⟨p, hp, only_membership hr (hrows p hp).membership hid ?_⟩
  exact hdying.2

theorem reap_observes (hb : deletedMailbox b.id db = some b) :
    Observes db next (reapMessages b.id next now (reapRows b.id db)
      (readAll 0 (rowIds (reapRows b.id db)) membershipCounts db) ++
        [Stmt.deleteExpunged b.id, .deleteMailbox b.id]) := by
  obtain ⟨hmem, -, hstatus⟩ := deletedMailbox_spec hb
  refine ⟨?_, ?_, ?_, .inl ((sends_append _ _).mpr (.inl (counts_last _ _)))⟩
  · constructor <;> simp [reapMessages, log, deleteMessageRows, bumpMessages]
    case closed => exact ⟨b, hmem, rfl, hstatus⟩
  · constructor <;> simp [reapMessages, log, deleteMessageRows, bumpMessages]
  · constructor <;> simp [reapMessages, log, deleteMessageRows, bumpMessages, exists_chunk]
    case destroyed =>
      intro r hr hdying
      obtain ⟨p, hp, rfl⟩ := dying_only (fun p hp => (mem_joinMessages hp).1) hr hdying
      simpa using (mem_joinMessages hp).2
    case flagged => exact fun id hid => .inl hid

theorem setKeywords_observes (c : KeywordChange) :
    Observes db next (setKeywordsStmts next now c) := by
  have hstill : ∀ s ∈ setKeywordsStmts next now c, s.Still := by
    simp only [setKeywordsStmts, KeywordChange.removeStmts, multiRow, keywordStates, log,
      List.forall_mem_append, List.forall_mem_cons, List.forall_mem_map, List.forall_mem_flatMap]
    simp
  refine ⟨houses_of_stays db ?_, places_of_still hstill next, renewals_of_still hstill ?_ ?_, ?_⟩
  · simp only [setKeywordsStmts, KeywordChange.removeStmts, multiRow, keywordStates, log,
      List.forall_mem_append, List.forall_mem_cons, List.forall_mem_map, List.forall_mem_flatMap]
    simp
  · simp [setKeywordsStmts, log, KeywordChange.removeStmts, multiRow, keywordStates, exists_chunk_mem]
    rintro id (⟨-, rfl⟩ | ⟨k, hk, rfl⟩)
    · rfl
    · obtain ⟨x, -, rfl⟩ := List.mem_map.mp hk
      rfl
  · simp [setKeywordsStmts, log, KeywordChange.removeStmts, multiRow, keywordStates]
  · simp [setKeywordsStmts, keywordStates]

theorem setKeywordsBatch_observes (changes : List KeywordChange) :
    Observes db next (setKeywordsBatchStmts next now changes) := by
  have hstill : ∀ s ∈ setKeywordsBatchStmts next now changes, s.Still := by
    simp only [setKeywordsBatchStmts, KeywordChange.removeStmts, bumpMessages, multiRow,
      keywordStates, log, List.forall_mem_append, List.forall_mem_cons, List.forall_mem_map,
      List.forall_mem_flatMap]
    simp
  refine ⟨houses_of_stays db ?_, places_of_still hstill next, renewals_of_still hstill ?_ ?_, ?_⟩
  · simp only [setKeywordsBatchStmts, KeywordChange.removeStmts, bumpMessages, multiRow,
      keywordStates, log, List.forall_mem_append, List.forall_mem_cons, List.forall_mem_map,
      List.forall_mem_flatMap]
    simp
  · simp [setKeywordsBatchStmts, log, KeywordChange.removeStmts, bumpMessages, multiRow,
      keywordStates, exists_chunk, exists_chunk_mem]
    rintro id (⟨c, hc, -, hid⟩ | ⟨k, ⟨c, hc, hk⟩, hid⟩)
    · exact ⟨c, hc, hid⟩
    · obtain ⟨x, -, rfl⟩ := List.mem_map.mp hk
      exact ⟨c, hc, hid⟩
  · simp [setKeywordsBatchStmts, log, KeywordChange.removeStmts, bumpMessages, multiRow, keywordStates]
  · simp [setKeywordsBatchStmts, keywordStates]

theorem append_observes (hkeyed : Keyed db) {group : List Appended} {cursor : List (Id × Nat)}
    (huids : GroupUids db group cursor) : Observes db next (appendStmts u next now group cursor) := by
  have hmailbox : ∀ b, b ∈ groupMailboxes group ↔ ∃ a ∈ group, ∃ p ∈ a.uids, p.1 = b := by
    simp [groupMailboxes]
  have hrow : ∀ a : Appended, (a.row next).id = a.messageId := fun _ => rfl
  refine ⟨houses_of_stays db ?_, ?_, ?_, .inl (counts_last _ _)⟩
  · simp only [appendStmts, Appended.stmts, multiRow, log, List.forall_mem_append,
      List.forall_mem_cons, List.forall_mem_map, List.forall_mem_flatMap]
    simp
  · constructor <;> simp [appendStmts, Appended.stmts, log, multiRow, exists_chunk]
    case inserted =>
      intro r a ha hr
      obtain ⟨p, hp, rfl⟩ := List.mem_map.mp hr
      obtain ⟨b, hb, hid, -, hlow, hhigh⟩ := huids a ha p hp
      exact ⟨⟨b, hb, hid, hlow⟩, (hmailbox p.1).mpr ⟨a, ha, p, hp, rfl⟩, fun _ => hhigh⟩
    case advanced =>
      intro b hb hin
      obtain ⟨a, ha, p, hp, hid⟩ := (hmailbox b.id).mp hin
      obtain ⟨b', hb', hid', -, hlow, hhigh⟩ := huids a ha p hp
      have hsame := List.inj_on_of_nodup_map hkeyed.mailbox hb' hb (hid'.trans hid)
      rw [hsame] at hlow
      rw [hid] at hhigh
      omega
  · constructor <;> simp [appendStmts, Appended.stmts, log, multiRow, exists_chunk, exists_chunk_mem]
    case entered =>
      intro r a ha hr
      obtain ⟨p, hp, rfl⟩ := List.mem_map.mp hr
      exact ⟨⟨a, ha, rfl⟩, .inr ⟨a, ha, rfl⟩⟩
    case flagged =>
      intro id a ha k hk hid
      obtain ⟨x, -, rfl⟩ := List.mem_map.mp hk
      exact ⟨a, ha, hid⟩

theorem setDeleted_observes (hkeyed : Keyed db) (mailboxId : Id) (deleted : Bool)
    {targets : List Membership}
    (htargets : ∀ r ∈ targets, r ∈ db.memberships ∧ r.mailboxId = mailboxId) :
    Observes db next (setDeletedStmts next now mailboxId deleted targets) := by
  have hstill : ∀ s ∈ setDeletedStmts next now mailboxId deleted targets, s.Still := by
    simp only [setDeletedStmts, bumpMessages, log, List.forall_mem_append, List.forall_mem_cons,
      List.forall_mem_map]
    simp
  refine ⟨houses_of_stays db ?_, places_of_still hstill next, renewals_of_still hstill ?_ ?_, ?_⟩
  · simp only [setDeletedStmts, bumpMessages, log, List.forall_mem_append, List.forall_mem_cons,
      List.forall_mem_map]
    simp
  · simp [setDeletedStmts, log, bumpMessages]
  · simp [setDeletedStmts, log, bumpMessages, exists_chunk, exists_chunk_and]
    intro r hr hb x hx huid
    have hsame := List.inj_on_of_nodup_map hkeyed.uid (htargets x hx).1 hr
      (Prod.ext ((htargets x hx).2.trans hb.symm) huid)
    exact ⟨x, hx, by rw [hsame]⟩
  · simp [setDeletedStmts]

theorem readExpungeRows_spec {mailboxId : Id} {uids : Option (List Nat)}
    (h : (readExpungeRows mailboxId uids).on db = .ok rows) :
    ∀ p ∈ rows, JoinedRow db p ∧ p.1.mailboxId = mailboxId := by
  have hall : ∀ q p, p ∈ expungeRows mailboxId q db → JoinedRow db p ∧ p.1.mailboxId = mailboxId := by
    intro q p hp
    obtain ⟨hrow, hq⟩ := mem_joinMessages hp
    simp only [Bool.and_eq_true, decide_eq_true_eq] at hq
    exact ⟨hrow, hq.1.1⟩
  intro p hp
  rw [readExpungeRows.eq_def] at h
  split at h
  · rw [on_queryInChunks] at h
    cases h
    obtain ⟨part, hp⟩ := mem_readAll hp
    exact hall _ p hp
  · cases h
    exact hall _ p hp

theorem expunge_observes {mailboxId : Id} (seen : List Id)
    (hrows : ∀ p ∈ rows, JoinedRow db p ∧ p.1.mailboxId = mailboxId) :
    Observes db next (expungeStmts next now mailboxId (expungeTargets rows)
      (readAll 0 (rowIds rows) membershipCounts db) seen) := by
  have hids : ((expungeTargets rows).map (·.messageId)).eraseDups = rowIds rows := by
    simp [expungeTargets, rowIds, Function.comp_def]
  have huid : ∀ t ∈ expungeTargets rows, ∃ p ∈ rows, t.uid = p.1.uid := by
    intro t ht
    obtain ⟨p, hp, rfl⟩ := List.mem_map.mp ht
    exact ⟨p, hp, rfl⟩
  refine ⟨houses_of_stays db ?_, ?_, ?_, by simp [expungeStmts]⟩
  · simp only [expungeStmts, deleteMessageRows, bumpMessages, multiRow, log, List.forall_mem_append,
      List.forall_mem_cons, List.forall_mem_map, List.forall_mem_flatMap]
    simp
  · constructor <;> simp [expungeStmts, log, deleteMessageRows, bumpMessages, multiRow, exists_chunk,
      exists_chunk_and]
    case buried =>
      rintro b uid rfl t ht rfl
      exact ⟨t, ht, rfl, rfl⟩
    case removed =>
      intro t ht
      obtain ⟨p, hp, hu⟩ := huid t ht
      exact ⟨⟨t, ht, rfl⟩, p.1, (hrows p hp).1.membership, (hrows p hp).2, hu.symm⟩
  · constructor <;> simp [expungeStmts, hids, log, deleteMessageRows, bumpMessages, multiRow,
      exists_chunk, exists_chunk_and]
    case destroyed =>
      intro r hr hdying
      obtain ⟨p, hp, rfl⟩ := dying_only (fun p hp => (hrows p hp).1) hr hdying
      exact ⟨(hrows p hp).2, _, List.mem_map_of_mem hp, rfl⟩
    case flagged => exact fun id hid => .inl hid

theorem remove_observes (m : MessageRow) (hr : r ∈ db.memberships) (seen : Bool) :
    Observes db next (removeMembershipStmts next now r m
      ((db.memberships.countP fun x => x.messageId = r.messageId) ≤ 1) seen) := by
  refine ⟨houses_of_stays db ?_, ?_, ?_, ?_⟩
  · simp only [removeMembershipStmts, deleteMessageRow, log, forall_mem_ite, List.forall_mem_append,
      List.forall_mem_cons]
    simp
  · constructor <;> simp [removeMembershipStmts, log, deleteMessageRow, sends_ite, leaveSet]
    case removed => exact ⟨r, hr, rfl, rfl⟩
  · constructor <;> simp [removeMembershipStmts, log, deleteMessageRow, sends_ite, leaveSet]
    case destroyed =>
      intro r' hr' hcount hsame
      rw [only_membership hr hr' hsame hcount]
      exact ⟨rfl, rfl⟩
    case flagged => exact .inl
  · simp [removeMembershipStmts, log, sends_ite]
    exact .inl (le_or_gt _ _)

theorem destroy_observes (m : MessageRow) (seen : Bool) :
    Observes db next (destroyMessageStmts next now m
      (db.memberships.filter fun r => r.messageId = m.id) seen) := by
  refine ⟨houses_of_stays db ?_, ?_, ?_, by simp [destroyMessageStmts]⟩
  · simp only [destroyMessageStmts, deleteMessageRow, log, List.forall_mem_append,
      List.forall_mem_cons, List.forall_mem_flatMap]
    simp
  · constructor <;> simp [destroyMessageStmts, log, deleteMessageRow, leaveSet]
    case removed =>
      rintro x r hr hm rfl
      exact ⟨⟨r, ⟨hr, hm⟩, rfl, rfl⟩, r, hr, rfl, rfl⟩
  · constructor <;> simp [destroyMessageStmts, log, deleteMessageRow, leaveSet]
    case destroyed => exact fun r hr hm => ⟨r, ⟨hr, hm⟩, rfl, rfl⟩

section

variable (hkeyed : Keyed db) {target : MailboxRow}
  (htarget : activeMailbox target.id db = some target)
include hkeyed htarget

theorem target_unique (hb : b ∈ db.mailboxes) (hid : b.id = target.id) :
    b = target :=
  List.inj_on_of_nodup_map hkeyed.mailbox hb (activeMailbox_spec htarget).1 hid

theorem move_observes {m : MessageRow} {source : Membership} (hrow : JoinedRow db (source, m))
    (seen : Bool) : Observes db next (moveMessageStmts next now m source target seen) := by
  refine ⟨houses_of_stays db (by simp [moveMessageStmts, log]), ?_, ?_, by simp [moveMessageStmts]⟩
  · constructor <;> simp [moveMessageStmts, log, leaveSet, enterSet]
    case removed => exact ⟨source, hrow.membership, rfl, rfl⟩
    case inserted => exact ⟨target, (activeMailbox_spec htarget).1, rfl, Nat.le_refl _⟩
    case advanced =>
      intro b hb hid
      rw [target_unique hkeyed htarget hb hid]
      omega
  · constructor <;> simp [moveMessageStmts, log]
    case entered => exact ⟨m, hrow.message, rfl⟩

theorem copy_observes {m : MessageRow} (hm : m ∈ db.messages) (seen : Bool) :
    Observes db next (copyMessageStmts next now m target seen) := by
  refine ⟨houses_of_stays db (by simp [copyMessageStmts, log]), ?_, ?_, by simp [copyMessageStmts]⟩
  · constructor <;> simp [copyMessageStmts, log, enterSet]
    case inserted => exact ⟨target, (activeMailbox_spec htarget).1, rfl, Nat.le_refl _⟩
    case advanced =>
      intro b hb hid
      rw [target_unique hkeyed htarget hb hid]
      omega
  · constructor <;> simp [copyMessageStmts, log]
    case entered => exact ⟨m, hm, rfl⟩

theorem transfer_observes {fromId : Id} {op : TransferOp} {ids : List Id} {rows : TransferRows}
    {transfers : List Transfer} {cursor : Nat}
    (hfacts : TransferFacts db fromId target.id op ids rows transfers)
    (huids : TransferUids target.uidnext cursor transfers) :
    Observes db next (transferStmts next now fromId target.id rows ids transfers cursor) := by
  have hleave : ∀ p ∈ transfers.filterMap (·.leaves),
      p.2 ∈ db.memberships ∧ p.2.mailboxId = fromId := by
    intro p hp
    obtain ⟨t, ht, hleaves⟩ := List.mem_filterMap.mp hp
    have hfound := hfacts.found t ht
    cases t with
    | present m source uid =>
      simp only [Transfer.leaves] at hleaves
      split at hleaves
      · cases hleaves
        exact ⟨hfound.1.membership, hfound.2.1⟩
      · cases hleaves
    | moved m source uid =>
      cases hleaves
      exact ⟨hfound.1.membership, hfound.2.1⟩
    | copied m uid copyId => cases hleaves
  -- What enters is a copy, or a message that leaves the source.
  have henter : ∀ p ∈ transfers.filterMap (·.enters),
      (∃ c ∈ transfers.filterMap (·.copies), c.2 = p.2.1) ∨
        ∃ q ∈ transfers.filterMap (·.leaves), q.1 ∈ db.messages ∧ q.1.id = p.2.1 := by
    intro p hp
    obtain ⟨t, ht, henters⟩ := List.mem_filterMap.mp hp
    have hfound := hfacts.found t ht
    cases t with
    | present m source uid => cases henters
    | moved m source uid =>
      cases henters
      exact .inr ⟨(m, source), List.mem_filterMap.mpr ⟨_, ht, rfl⟩, hfound.1.message, rfl⟩
    | copied m uid copyId =>
      cases henters
      exact .inl ⟨(m, copyId), List.mem_filterMap.mpr ⟨_, ht, rfl⟩, rfl⟩
  have huid := huids.2
  have hmem := (activeMailbox_spec htarget).1
  have hrow : ∀ p, (copyRow next p).id = p.2 := fun _ => rfl
  simp only [transferStmts]
  generalize transfers.filterMap (·.leaves) = leaving at hleave henter
  generalize transfers.filterMap (·.enters) = entering at henter huid
  generalize transfers.filterMap (·.copies) = copies at henter
  refine ⟨houses_of_stays db ?_, ?_, ?_, .inl (counts_last _ _)⟩
  · simp only [bumpMessages, multiRow, log, forall_mem_ite, List.forall_mem_append,
      List.forall_mem_cons, List.forall_mem_map]
    simp
  · constructor <;> simp only [log, bumpMessages, multiRow, sends_append, sends_cons, sends_map,
      sends_ite, sends_nil] <;> dsimp only [Stmt.Removes, Stmt.Buries, Stmt.Closes, Stmt.Inserts,
      Stmt.Advances] <;> simp [exists_chunk]
    case buried =>
      rintro b uid m r hp rfl rfl
      exact ⟨m, r, hp, rfl, rfl⟩
    case removed =>
      rintro x m r hp rfl
      exact ⟨⟨m, r, hp, rfl, rfl⟩, r, (hleave _ hp).1, (hleave _ hp).2, rfl⟩
    case inserted =>
      rintro r m id uid hp rfl
      have hsome : entering ≠ [] := List.ne_nil_of_mem hp
      exact ⟨⟨target, hmem, rfl, (huid _ hp).1⟩, ⟨hsome, rfl⟩, fun _ _ => (huid _ hp).2⟩
    case advanced =>
      intro b hb _ hid
      rw [target_unique hkeyed htarget hb hid]
      exact huids.1
  · constructor <;> simp [log, bumpMessages, multiRow, exists_chunk, exists_chunk_mem, sends_ite, hrow]
    case entered =>
      rintro r m id uid hp rfl
      rcases henter _ hp with ⟨⟨a, c⟩, hc, rfl⟩ | ⟨⟨a, q⟩, hq, ha, hid⟩
      · exact ⟨.inl ⟨a, hc⟩, .inr ⟨a, hc⟩⟩
      · exact ⟨.inr ⟨a, ⟨q, hq⟩, hid⟩, .inl ⟨a, ha, hid⟩⟩
    case flagged =>
      intro id m hc _ _ _
      exact .inl ⟨m, hc⟩

end

theorem Planned.observes {env : Env} {op : Op} (hkeyed : Keyed db)
    (hattached : Attached db) (h : Planned u db env op stmts) :
    Observes db (db.account.modseq + 1) stmts := by
  cases h with
  | nothing =>
    exact ⟨houses_of_stays db (by simp), places_of_still (by simp) _,
      renewals_of_still (by simp) (by simp) (by simp), .inr (by simp)⟩
  | create parentId name role uidvalidity hfresh => exact create_observes _ _ _ _ hfresh
  | change op b set kind hb hset huidnext => exact change_observes _ _ _ huidnext
  | reapEmpty b hb hrows => exact reapEmpty_observes hattached hb hrows
  | reap b hb hrows => exact reap_observes hb
  | append inputs group cursor hgroup huids => exact append_observes hkeyed huids
  | setKeywords id add remove c hc => exact setKeywords_observes c
  | setKeywordsBatch ids add remove replace changes => exact setKeywordsBatch_observes changes
  | setDeleted mailboxId uids deleted b hb targets htargets =>
    exact setDeleted_observes hkeyed _ _ fun r hr =>
      ⟨((htargets r).mp hr).1, ((htargets r).mp hr).2.1⟩
  | expunge mailboxId uids b hb rows hrows =>
    exact expunge_observes _ (readExpungeRows_spec hrows)
  | remove r m hrow => exact remove_observes m hrow.membership _
  | transfer ids fromId toId op target htarget rows transfers cursor hfacts huids =>
    obtain ⟨-, rfl, -⟩ := activeMailbox_spec htarget
    exact transfer_observes hkeyed htarget hfacts huids
  | destroy m hm => exact destroy_observes m _
  | move m source target hrow htarget hnew => exact move_observes hkeyed htarget hrow _
  | copy m target hm htarget hnew => exact copy_observes hkeyed htarget hm _

end

/-- All rows of the message have the modseq `n`. -/
def ModseqIs (db : Db) (id : Id) (n : Nat) : Prop := ∀ m ∈ db.messages, m.id = id → m.modseq = n

/-- What a client can have seen before and sees after a batch. -/
structure Evolves (db db' : Db) : Prop where
  modseq : db.account.modseq ≤ db'.account.modseq
  uidvalidityLast : db.account.uidvalidityLast ≤ db'.account.uidvalidityLast
  mailbox : ∀ b' ∈ db'.mailboxes,
    (∃ b ∈ db.mailboxes, SameMailbox b b' ∧ b.uidnext ≤ b'.uidnext) ∨
      (∀ b ∈ db.mailboxes, b.id ≠ b'.id) ∧ b'.uidnext = 1 ∧ b'.expungedFloor = 0 ∧
        db.account.uidvalidityLast < b'.uidvalidity ∧ b'.uidvalidity = db'.account.uidvalidityLast
  /-- No two mailboxes come at once. -/
  single : ∀ b₁ ∈ db'.mailboxes, ∀ b₂ ∈ db'.mailboxes, (∀ b ∈ db.mailboxes, b.id ≠ b₁.id) →
    (∀ b ∈ db.mailboxes, b.id ≠ b₂.id) → b₁.id = b₂.id
  membership : ∀ r' ∈ db'.memberships,
    (∃ r ∈ db.memberships, SameRow r r' ∧ (r' = r ∨
        db.account.modseq < db'.account.modseq ∧ ModseqIs db' r'.messageId db'.account.modseq)) ∨
      (∃ b ∈ db.mailboxes, ∃ b' ∈ db'.mailboxes, b.id = r'.mailboxId ∧ SameMailbox b b' ∧
        b.uidnext ≤ r'.uid ∧ r'.uid < b'.uidnext) ∧
        db.account.modseq < db'.account.modseq ∧ ModseqIs db' r'.messageId db'.account.modseq
  /-- A mailbox that goes leaves nothing behind. -/
  stays : ∀ b ∈ db.mailboxes, (∃ b' ∈ db'.mailboxes, SameMailbox b b') ∨
    (∀ b' ∈ db'.mailboxes, b'.id ≠ b.id) ∧ (∀ r' ∈ db'.memberships, r'.mailboxId ≠ b.id) ∧
      ∀ x ∈ db'.expunged, x.mailboxId ≠ b.id
  gone : ∀ r ∈ db.memberships, (∃ r' ∈ db'.memberships, SameRow r r') ∨
    (∃ x ∈ db'.expunged, x.mailboxId = r.mailboxId ∧ x.uid = r.uid ∧
      db.account.modseq < x.modseq) ∨ ∀ b' ∈ db'.mailboxes, b'.id ≠ r.mailboxId
  tomb : ∀ x ∈ db'.expunged, x ∈ db.expunged ∨
    db.account.modseq < db'.account.modseq ∧ x.modseq = db'.account.modseq ∧
      (∃ r ∈ db.memberships, r.mailboxId = x.mailboxId ∧ r.uid = x.uid) ∧
      ∀ r' ∈ db'.memberships, r'.mailboxId = x.mailboxId → r'.uid ≠ x.uid
  kept : ∀ x ∈ db.expunged, x ∈ db'.expunged ∨ ∀ b' ∈ db'.mailboxes, b'.id ≠ x.mailboxId
  message : ∀ m ∈ db'.messages, m ∈ db.messages ∨
    db.account.modseq < db'.account.modseq ∧ m.modseq = db'.account.modseq
  keywords : ∀ id, (db'.keywords.filter fun k => k.messageId = id) =
      (db.keywords.filter fun k => k.messageId = id) ∨
    db.account.modseq < db'.account.modseq ∧ ModseqIs db' id db'.account.modseq

section

variable {db db' : Db} {now : Nat} (hkeyed : Keyed db)
  (hobs : Observes db (db.account.modseq + 1) stmts)
  (hstamps : ∀ s ∈ stmts, s.Stamped (db.account.modseq + 1) now) (h : batch stmts db = some db')
include h

theorem batch_account : db'.account = across Stmt.onAccount stmts db.account := by
  rw [batch_eq h, applyAll_eq]

theorem batch_mailboxes : db'.mailboxes = across Stmt.onMailboxes stmts db.mailboxes := by
  rw [batch_eq h, applyAll_eq]

theorem batch_messages : db'.messages = across Stmt.onMessages stmts db.messages := by
  rw [batch_eq h, applyAll_eq]

theorem batch_memberships : db'.memberships = across Stmt.onMemberships stmts db.memberships := by
  rw [batch_eq h, applyAll_eq]

theorem batch_keywords : db'.keywords = across Stmt.onKeywords stmts db.keywords := by
  rw [batch_eq h, applyAll_eq]

theorem batch_expunged : db'.expunged = across Stmt.onExpunged stmts db.expunged := by
  rw [batch_eq h, applyAll_eq]

section

include hobs hkeyed

theorem closed_gone {b : Id} (hclose : Sends (Stmt.Closes b) stmts) :
    ∀ b' ∈ db'.mailboxes, b'.id ≠ b := by
  obtain ⟨⟨row, hrow, hid, hstatus⟩, hsets, -, -, -, hopens⟩ := hobs.houses.closed b hclose
  intro b' hb' hsame
  rw [batch_mailboxes h] at hb'
  obtain ⟨b₀, hkin, hfrom, -⟩ := mailboxes_from hb'
  have hid₀ : b₀.id = b := hkin.id.symm.trans hsame
  rcases hfrom with ⟨hb₀, -, hopen⟩ | hopen
  · have heq : b₀ = row := List.inj_on_of_nodup_map hkeyed.mailbox hb₀ hrow (hid₀.trans hid.symm)
    rw [hid₀] at hopen
    exact hopen hclose hsets (heq ▸ hstatus)
  · exact hopens b₀ hopen

theorem evolves_stays (hb : b ∈ db.mailboxes) :
    (∃ b' ∈ db'.mailboxes, SameMailbox b b') ∨
      (∀ b' ∈ db'.mailboxes, b'.id ≠ b.id) ∧ (∀ r' ∈ db'.memberships, r'.mailboxId ≠ b.id) ∧
        ∀ x ∈ db'.expunged, x.mailboxId ≠ b.id := by
  by_cases hclose : Sends (Stmt.Closes b.id) stmts
  · obtain ⟨-, -, hremoves, hinserts, hburies, -⟩ := hobs.houses.closed b.id hclose
    refine .inr ⟨closed_gone hkeyed hobs h hclose, fun r' hr' hin => ?_, fun x hx hin => ?_⟩
    · rw [batch_memberships h] at hr'
      obtain ⟨r, hfrom, hsame, -⟩ := memberships_from hr'
      rcases hfrom with ⟨hr, hkeep⟩ | hins
      · have hrb : r.mailboxId = b.id := hsame.mailbox.symm.trans hin
        exact hkeep (hrb ▸ hremoves r hr hrb)
      · exact hinserts r hins
    · rw [batch_expunged h] at hx
      rcases expunged_from hx with ⟨-, hkeep⟩ | hbury
      · exact hkeep (hin ▸ (hobs.houses.cleared b.id).mpr hclose)
      · exact hburies x hbury
  · left
    rw [batch_mailboxes h]
    exact mailboxes_stay hb hclose

end

include hobs hstamps

theorem renewed_counted (hrenew : Sends (Stmt.Renews id) stmts) :
    db'.account.modseq = db.account.modseq + 1 := by
  rw [batch_account h]
  rcases hobs.counted with hcounts | ⟨hnone, -⟩
  · exact account_counted hstamps hcounts _
  · exact absurd hrenew (hnone id)

theorem buried_counted {x : Expunged} (hbury : Sends (Stmt.Buries x) stmts) :
    db'.account.modseq = db.account.modseq + 1 ∧ x.modseq = db.account.modseq + 1 := by
  have hstamp : x.modseq = db.account.modseq + 1 := by
    obtain ⟨s, hs, hx⟩ := hbury
    have := hstamps s hs
    cases s with
    | insertExpunged rows => exact (this x hx).1
    | _ => exact absurd hx id
  refine ⟨?_, hstamp⟩
  rw [batch_account h]
  rcases hobs.counted with hcounts | ⟨-, hnone, -⟩
  · exact account_counted hstamps hcounts _
  · exact absurd hbury (hnone x)

theorem renewed_modseq (hrenew : Sends (Stmt.Renews id) stmts) :
    db.account.modseq < db'.account.modseq ∧ ModseqIs db' id db'.account.modseq := by
  have hnext := renewed_counted hobs hstamps h hrenew
  refine ⟨by omega, fun m hm hid => ?_⟩
  rcases messages_from hstamps h hm with ⟨-, hnot⟩ | ⟨heq, -⟩
  · exact absurd (hid ▸ hrenew) hnot
  · exact heq.trans hnext.symm

include hkeyed

theorem evolves_mailbox (hlast : ∀ b ∈ db.mailboxes, b.uidvalidity ≤ db.account.uidvalidityLast)
    {b' : MailboxRow} (hb' : b' ∈ db'.mailboxes) :
    (∃ b ∈ db.mailboxes, SameMailbox b b' ∧ b.uidnext ≤ b'.uidnext) ∨
      (∀ b ∈ db.mailboxes, b.id ≠ b'.id) ∧ b'.uidnext = 1 ∧ b'.expungedFloor = 0 ∧
        db.account.uidvalidityLast < b'.uidvalidity ∧
        b'.uidvalidity = db'.account.uidvalidityLast := by
  have hin := hb'
  rw [batch_mailboxes h] at hin
  obtain ⟨b, hsame, hfrom, hnext⟩ := mailboxes_from hin
  rcases hfrom with ⟨hb, -, -⟩ | hopen
  · refine .inl ⟨b, hb, hsame, ?_⟩
    rcases hnext with heq | hadv
    · exact heq.ge
    · exact hobs.places.advanced b hb _ hadv
  · obtain ⟨hfresh, ⟨v, hv⟩, hage, hnone, -⟩ := hobs.houses.opened b hopen
    have hrow : b.uidnext = 1 ∧ b.expungedFloor = 0 := by
      obtain ⟨s, hs, hopens⟩ := hopen
      have hstamp := hstamps s hs
      cases s with
      | insertMailbox row =>
        cases hopens
        exact hstamp.2
      | _ => exact absurd hopens id
    have haccount : db'.account.uidvalidityLast = b.uidvalidity := by
      rw [batch_account h]
      rcases account_uidvalidity stmts db.account with ⟨-, hnever⟩ | hlast'
      · exact absurd hv (hnever v)
      · exact hage _ hlast'
    -- A row with this id from before would still be there, with another uidvalidity.
    refine .inr ⟨fun b₀ hb₀ hid => ?_, ?_, hsame.floor.trans hrow.2, ?_, ?_⟩
    · have hnew := hsame.uidvalidity
      rcases evolves_stays hkeyed hobs h hb₀ with ⟨b₁, hb₁, hsame₁⟩ | ⟨hgone, -⟩
      · have heq := List.inj_on_of_nodup_map (batch_keyed hkeyed h).mailbox hb₁ hb'
          (hsame₁.id.trans hid)
        have hold := hsame₁.uidvalidity
        have := hlast b₀ hb₀
        rw [heq] at hold
        omega
      · exact hgone b' hb' hid.symm
    · exact (hnext.resolve_right (hnone _ _)).trans hrow.1
    · exact hsame.uidvalidity ▸ hfresh
    · rw [haccount, hsame.uidvalidity]

theorem Observes.evolves (hlast : ∀ b ∈ db.mailboxes, b.uidvalidity ≤ db.account.uidvalidityLast)
    (hbelow : ∀ r ∈ db.memberships, ∀ b ∈ db.mailboxes, b.id = r.mailboxId → r.uid < b.uidnext) :
    Evolves db db' where
  modseq := by
    rw [batch_account h]
    rcases account_modseq hstamps db.account with heq | heq <;> omega
  uidvalidityLast := by
    rw [batch_account h]
    rcases account_uidvalidity stmts db.account with ⟨heq, -⟩ | hage
    · exact heq.ge
    · exact (hobs.houses.aged _ hage).le
  mailbox b' hb' := evolves_mailbox hkeyed hobs hstamps h hlast hb'
  single b₁ hb₁ b₂ hb₂ hnew₁ hnew₂ := by
    rw [batch_mailboxes h] at hb₁ hb₂
    obtain ⟨a₁, hsame₁, hfrom₁, -⟩ := mailboxes_from hb₁
    obtain ⟨a₂, hsame₂, hfrom₂, -⟩ := mailboxes_from hb₂
    rcases hfrom₁ with ⟨ha₁, -⟩ | hopen₁
    · exact absurd hsame₁.id.symm (hnew₁ a₁ ha₁)
    · rcases hfrom₂ with ⟨ha₂, -⟩ | hopen₂
      · exact absurd hsame₂.id.symm (hnew₂ a₂ ha₂)
      · rw [hsame₁.id, hsame₂.id, (hobs.houses.opened a₂ hopen₂).2.2.2.2 a₁ hopen₁]
  membership r' hr' := by
    rw [batch_memberships h] at hr'
    obtain ⟨r, hfrom, hsame, hmark⟩ := memberships_from hr'
    rcases hfrom with ⟨hr, -⟩ | hins
    · refine .inl ⟨r, hr, hsame, ?_⟩
      by_cases hmarks : Sends (Stmt.Marks r.mailboxId r.uid) stmts
      · rw [hsame.message]
        exact .inr (renewed_modseq hobs hstamps h (hobs.renewals.marked r hr hmarks))
      · exact .inl (hmark hmarks)
    · obtain ⟨⟨b, hb, hid, hlow⟩, ⟨n, hn⟩, hhigh⟩ := hobs.places.inserted r hins
      have hopen : ¬ Sends (Stmt.Closes b.id) stmts := fun hclose =>
        (hobs.houses.closed b.id hclose).2.2.2.1 r hins
      obtain ⟨b', hb', hsame'⟩ := mailboxes_stay hb hopen
      have hlater : Sends (Stmt.Advances r.mailboxId b'.uidnext) stmts := by
        obtain ⟨b₀, hkin, hfrom, -⟩ := mailboxes_from hb'
        rcases hfrom with ⟨hb₀, hadv, -⟩ | hopens
        · have heq := List.inj_on_of_nodup_map hkeyed.mailbox hb₀ hb (hkin.id.symm.trans hsame'.id)
          rw [heq, hid] at hadv
          exact hadv n hn
        · exact absurd hn ((hobs.houses.opened b₀ hopens).2.2.2.1 _ _)
      rw [hsame.mailbox, hsame.uid, hsame.message]
      refine .inr ⟨⟨b, hb, b', batch_mailboxes h ▸ hb', hid, hsame', hlow, hhigh _ hlater⟩, ?_⟩
      exact renewed_modseq hobs hstamps h (hobs.renewals.entered r hins).1
  stays b hb := evolves_stays hkeyed hobs h hb
  gone r hr := by
    by_cases hgone : Sends (Stmt.Removes r.mailboxId r.uid) stmts
    · right
      rcases hobs.places.buried _ _ hgone with hclose | ⟨now', hbury⟩
      · exact .inr (closed_gone hkeyed hobs h hclose)
      · left
        have hopen : ¬ Sends (Stmt.Clears r.mailboxId) stmts := by
          rw [hobs.houses.cleared]
          exact fun hclose => (hobs.houses.closed _ hclose).2.2.2.2.1 _ hbury
        refine ⟨⟨r.mailboxId, r.uid, db.account.modseq + 1, now'⟩, ?_, rfl, rfl, Nat.lt_succ_self _⟩
        rw [batch_expunged h]
        exact expunged_stay (.inr hbury) hopen
    · left
      rw [batch_memberships h]
      exact memberships_stay hr hgone
  tomb x hx := by
    rw [batch_expunged h] at hx
    rcases expunged_from hx with ⟨hold, -⟩ | hbury
    · exact .inl hold
    · obtain ⟨hnext, hstamp⟩ := buried_counted hobs hstamps h hbury
      obtain ⟨hgone, hrow⟩ := hobs.places.removed x hbury
      refine .inr ⟨by omega, hstamp.trans hnext.symm, hrow, fun r' hr' hb huid => ?_⟩
      rw [batch_memberships h] at hr'
      obtain ⟨r, hfrom, hsame, -⟩ := memberships_from hr'
      rw [hsame.mailbox] at hb
      rw [hsame.uid] at huid
      rcases hfrom with ⟨-, hkeep⟩ | hins
      · exact hkeep (hb ▸ huid ▸ hgone)
      · obtain ⟨⟨b, hbmem, hid, hlow⟩, -⟩ := hobs.places.inserted r hins
        obtain ⟨r₀, hr₀, hb₀, huid₀⟩ := hrow
        have := hbelow r₀ hr₀ b hbmem (hid.trans (hb.trans hb₀.symm))
        omega
  kept x hx := by
    by_cases hclear : Sends (Stmt.Clears x.mailboxId) stmts
    · exact .inr (closed_gone hkeyed hobs h ((hobs.houses.cleared _).mp hclear))
    · left
      rw [batch_expunged h]
      exact expunged_stay (.inl hx) hclear
  message m hm := by
    rcases messages_from hstamps h hm with ⟨hold, -⟩ | ⟨heq, hrenew⟩
    · exact .inl hold
    · have hnext := renewed_counted hobs hstamps h hrenew
      exact .inr ⟨by omega, heq.trans hnext.symm⟩
  keywords id := by
    by_cases hflag : Sends (Stmt.Flags id) stmts
    · exact .inr (renewed_modseq hobs hstamps h (hobs.renewals.flagged id hflag))
    · left
      rw [batch_keywords h]
      exact keywords_stay hflag db.keywords

omit hstamps hkeyed in
theorem Observes.attached (hattached : Attached db) : Attached db' := by
  intro r' hr'
  rw [batch_memberships h] at hr'
  rw [batch_messages h]
  obtain ⟨r, hfrom, hsame, -⟩ := memberships_from hr'
  rw [hsame.message]
  rcases hfrom with ⟨hr, hkeep⟩ | hins
  · exact messages_stay (.inl (hattached r hr)) fun hgone => hkeep (hobs.renewals.destroyed r hr hgone)
  · obtain ⟨-, hlives, hmem⟩ := hobs.renewals.entered r hins
    exact messages_stay hmem hlives

end

/-- What holds of every database the store works on. -/
structure Sound (db : Db) : Prop where
  keyed : Keyed db
  attached : Attached db
  /-- Memberships are in a mailbox, below its `uidnext`. -/
  membership : ∀ r ∈ db.memberships, ∃ b ∈ db.mailboxes, b.id = r.mailboxId ∧ r.uid < b.uidnext
  expunged : ∀ x ∈ db.expunged, ∃ b ∈ db.mailboxes, b.id = x.mailboxId ∧ x.uid < b.uidnext
  apart : ∀ x ∈ db.expunged, ∀ r ∈ db.memberships, r.mailboxId = x.mailboxId → r.uid ≠ x.uid
  messages : ∀ m ∈ db.messages, m.modseq ≤ db.account.modseq
  tombs : ∀ x ∈ db.expunged, x.modseq ≤ db.account.modseq
  uidvalidity : ∀ b ∈ db.mailboxes, b.uidvalidity ≤ db.account.uidvalidityLast
  distinct : ∀ b ∈ db.mailboxes, ∀ b' ∈ db.mailboxes, b.uidvalidity = b'.uidvalidity → b = b'
  uidnext : ∀ b ∈ db.mailboxes, 1 ≤ b.uidnext
  positive : ∀ r ∈ db.memberships, 1 ≤ r.uid

namespace Sound

variable {db : Db} (hdb : Sound db)
include hdb

theorem mailbox_eq {b b' : MailboxRow} (hb : b ∈ db.mailboxes) (hb' : b' ∈ db.mailboxes)
    (h : b.id = b'.id) : b = b' :=
  List.inj_on_of_nodup_map hdb.keyed.mailbox hb hb' h

theorem membership_eq {r r' : Membership} (hr : r ∈ db.memberships) (hr' : r' ∈ db.memberships)
    (hb : r.mailboxId = r'.mailboxId) (huid : r.uid = r'.uid) : r = r' :=
  List.inj_on_of_nodup_map hdb.keyed.uid hr hr' (Prod.ext hb huid)

theorem below (hr : r ∈ db.memberships) (hb : b ∈ db.mailboxes)
    (hid : b.id = r.mailboxId) : r.uid < b.uidnext := by
  obtain ⟨b₀, hb₀, hid₀, hlt⟩ := hdb.membership r hr
  rw [hdb.mailbox_eq hb hb₀ (hid.trans hid₀.symm)]
  exact hlt

end Sound

section

variable {u : CaseMap} {op : Op} {env : Env} {db db' : Db}

theorem Commits.evolves (hdb : Sound db) (h : Commits u op env db db') : Evolves db db' := by
  obtain ⟨plan, hon, hbatch⟩ := h
  have hplanned := planned hon
  exact (hplanned.observes hdb.keyed hdb.attached).evolves hdb.keyed hplanned.stamped hbatch
    hdb.uidvalidity fun r hr b hb hid => hdb.below hr hb hid

theorem Sound.commits (hdb : Sound db) (h : Commits u op env db db') : Sound db' := by
  have hev := h.evolves hdb
  obtain ⟨plan, hon, hbatch⟩ := h
  have hkeyed := batch_keyed hdb.keyed hbatch
  have hattached := ((planned hon).observes hdb.keyed hdb.attached).attached hbatch hdb.attached
  -- A place below the old `uidnext` is below the new one, if anything of it is left.
  have hplace : ∀ b ∈ db.mailboxes, ∀ uid < b.uidnext,
      ((∃ r' ∈ db'.memberships, r'.mailboxId = b.id) ∨ ∃ x ∈ db'.expunged, x.mailboxId = b.id) →
      ∃ b' ∈ db'.mailboxes, b'.id = b.id ∧ uid < b'.uidnext := by
    intro b hb uid huid hleft
    rcases hev.stays b hb with ⟨b', hb', hsame⟩ | ⟨-, hnor, hnox⟩
    · refine ⟨b', hb', hsame.id, ?_⟩
      rcases hev.mailbox b' hb' with ⟨b₀, hb₀, hsame₀, hle⟩ | ⟨hnew, -⟩
      · rw [hdb.mailbox_eq hb₀ hb (hsame₀.id.symm.trans hsame.id)] at hle
        omega
      · exact absurd hsame.id.symm (hnew b hb)
    · rcases hleft with ⟨r', hr', hid⟩ | ⟨x, hx, hid⟩
      · exact absurd hid (hnor r' hr')
      · exact absurd hid (hnox x hx)
  refine ⟨hkeyed, hattached, fun r' hr' => ?_, fun x hx => ?_, fun x hx r' hr' hb huid => ?_,
    fun m hm => ?_, fun x hx => ?_, fun b' hb' => ?_, fun b₁ hb₁ b₂ hb₂ heq => ?_, fun b' hb' => ?_,
    fun r' hr' => ?_⟩
  · rcases hev.membership r' hr' with ⟨r, hr, hsame, -⟩ | ⟨⟨b, -, b', hb', hid, hsame, -, hlt⟩, -⟩
    · obtain ⟨b, hb, hid, hlt⟩ := hdb.membership r hr
      rw [hsame.mailbox, hsame.uid, ← hid]
      exact hplace b hb r.uid hlt (.inl ⟨r', hr', hsame.mailbox.trans hid.symm⟩)
    · exact ⟨b', hb', hsame.id.trans hid, hlt⟩
  · rcases hev.tomb x hx with hold | ⟨-, -, ⟨r, hr, hmb, hru⟩, -⟩
    · obtain ⟨b, hb, hid, hlt⟩ := hdb.expunged x hold
      rw [← hid]
      exact hplace b hb x.uid hlt (.inr ⟨x, hx, hid.symm⟩)
    · obtain ⟨b, hb, hid, hlt⟩ := hdb.membership r hr
      rw [← hmb, ← hru, ← hid]
      exact hplace b hb r.uid hlt (.inr ⟨x, hx, hmb.symm.trans hid.symm⟩)
  · rcases hev.tomb x hx with hold | ⟨-, -, -, hnone⟩
    · rcases hev.membership r' hr' with ⟨r, hr, hsame, -⟩ | ⟨⟨b, hbm, -, -, hid, -, hlow, -⟩, -⟩
      · exact hdb.apart x hold r hr (hsame.mailbox ▸ hb) (hsame.uid ▸ huid)
      · obtain ⟨b₀, hb₀, hid₀, hlt⟩ := hdb.expunged x hold
        rw [hdb.mailbox_eq hb₀ hbm (hid₀.trans (hb.symm.trans hid.symm))] at hlt
        omega
    · exact hnone r' hr' hb huid
  · rcases hev.message m hm with hold | ⟨-, heq⟩
    · exact (hdb.messages m hold).trans hev.modseq
    · exact heq.le
  · rcases hev.tomb x hx with hold | ⟨-, heq, -⟩
    · exact (hdb.tombs x hold).trans hev.modseq
    · exact heq.le
  · rcases hev.mailbox b' hb' with ⟨b, hb, hsame, -⟩ | ⟨-, -, -, -, heq⟩
    · rw [hsame.uidvalidity]
      exact (hdb.uidvalidity b hb).trans hev.uidvalidityLast
    · exact heq.le
  · apply List.inj_on_of_nodup_map hkeyed.mailbox hb₁ hb₂
    rcases hev.mailbox b₁ hb₁ with ⟨a₁, ha₁, hsame₁, -⟩ | ⟨hnew₁, -, -, hlt₁, -⟩
    · rcases hev.mailbox b₂ hb₂ with ⟨a₂, ha₂, hsame₂, -⟩ | ⟨-, -, -, hlt₂, -⟩
      · have ha := hdb.distinct a₁ ha₁ a₂ ha₂
          (hsame₁.uidvalidity.symm.trans (heq.trans hsame₂.uidvalidity))
        exact hsame₁.id.trans (ha ▸ hsame₂.id.symm)
      · have := hdb.uidvalidity a₁ ha₁
        have := hsame₁.uidvalidity
        omega
    · rcases hev.mailbox b₂ hb₂ with ⟨a₂, ha₂, hsame₂, -⟩ | ⟨hnew₂, -⟩
      · have := hdb.uidvalidity a₂ ha₂
        have := hsame₂.uidvalidity
        omega
      · exact hev.single b₁ hb₁ b₂ hb₂ hnew₁ hnew₂
  · rcases hev.mailbox b' hb' with ⟨b, hb, -, hle⟩ | ⟨-, hone, -⟩
    · exact (hdb.uidnext b hb).trans hle
    · exact hone.ge
  · rcases hev.membership r' hr' with ⟨r, hr, hsame, -⟩ | ⟨⟨b, hb, -, -, -, -, hlow, -⟩, -⟩
    · rw [hsame.uid]
      exact hdb.positive r hr
    · exact (hdb.uidnext b hb).trans hlow

theorem sound_newAccount (accountId mailboxId : Id) (now quotaBytes : Nat) :
    Sound (newAccount accountId mailboxId now quotaBytes) := by
  refine ⟨by constructor <;> simp [newAccount], by simp [newAccount, Attached], by simp [newAccount],
    by simp [newAccount], by simp [newAccount], by simp [newAccount], by simp [newAccount],
    fun b hb => ?_, by simp [newAccount], by simp [newAccount], by simp [newAccount]⟩
  have hinbox : b.uidvalidity = max (now / 1000) 1 := by
    rw [List.mem_singleton.mp hb]
  exact hinbox.le

end

end Ionosphere.Store
