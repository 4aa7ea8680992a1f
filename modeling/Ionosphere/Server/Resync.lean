import Ionosphere.Server.Sync
import Ionosphere.Store.Retention
import Ionosphere.Store.Uids

/-! QRESYNC: what `syncSince` answers is enough for a client that has seen a mailbox at some
modseq. The history in between is any sequence of operations and retention cycles. -/
namespace Ionosphere.Server

open Ionosphere.Js Ionosphere.Lib Ionosphere.Store Ionosphere.Imap

inductive Event where
  | call (c : Invocation)
  | retention (cutoffs : Cutoffs)

def Event.apply (u : CaseMap) : Event → Db → Db
  | call c, db => perform u c db
  | retention cutoffs, db => runRetention cutoffs db

def history (u : CaseMap) (events : List Event) (db : Db) : Db :=
  events.foldl (fun db e => e.apply u db) db

/-- The same membership with the same flags. -/
structure SameFlags (db db' : Db) (r r' : Membership) : Prop where
  row : SameRow r r'
  deleted : r'.deleted = r.deleted
  keywords : (db'.keywords.filter fun k => k.messageId = r'.messageId) =
    db.keywords.filter fun k => k.messageId = r.messageId

/-- All rows of the message are newer than `n`. -/
def Newer (db : Db) (id : Id) (n : Nat) : Prop := ∀ m ∈ db.messages, m.id = id → n < m.modseq

structure Drifts (db db' : Db) : Prop where
  continues : Continues db db'
  modseq : db.account.modseq ≤ db'.account.modseq
  floor : ∀ b ∈ db.mailboxes, ∀ b' ∈ db'.mailboxes, b'.uidvalidity = b.uidvalidity →
    b.expungedFloor ≤ b'.expungedFloor
  /-- A membership is still there, or has a tombstone, or the tombstone is expired. -/
  gone : ∀ r ∈ db.memberships, ∀ b ∈ db.mailboxes, ∀ b' ∈ db'.mailboxes, b.id = r.mailboxId →
    b'.uidvalidity = b.uidvalidity → (∃ r' ∈ db'.memberships, SameRow r r') ∨
      (∃ x ∈ db'.expunged, x.mailboxId = r.mailboxId ∧ x.uid = r.uid ∧
        db.account.modseq < x.modseq) ∨ db.account.modseq < b'.expungedFloor
  kept : ∀ x ∈ db.expunged, ∀ b ∈ db.mailboxes, ∀ b' ∈ db'.mailboxes, b.id = x.mailboxId →
    b'.uidvalidity = b.uidvalidity → x ∈ db'.expunged ∨ x.modseq ≤ b'.expungedFloor
  /-- A membership has the flags it had, or a newer message. -/
  membership : ∀ r' ∈ db'.memberships, (∃ r ∈ db.memberships, SameFlags db db' r r') ∨
    Newer db' r'.messageId db.account.modseq
  message : ∀ m ∈ db'.messages, m ∈ db.messages ∨ db.account.modseq < m.modseq

namespace Drifts

variable {db db₁ db₂ db₃ : Db}

theorem refl (db : Db) (hdb : Sound db) : Drifts db db where
  continues := .refl db
  modseq := Nat.le_refl _
  floor b hb b' hb' heq := by rw [hdb.distinct b' hb' b hb heq]
  gone r hr _ _ _ _ _ _ := .inl ⟨r, hr, .refl r⟩
  kept x hx _ _ _ _ _ _ := .inl hx
  membership r hr := .inl ⟨r, hr, .refl r, rfl, rfl⟩
  message m hm := .inl hm

theorem trans (hdb : Sound db₁) (h : Drifts db₁ db₂) (h' : Drifts db₂ db₃) : Drifts db₁ db₃ where
  continues := h.continues.trans hdb h'.continues
  modseq := h.modseq.trans h'.modseq
  floor b₁ hb₁ b₃ hb₃ hsame := by
    obtain ⟨b₂, hb₂, huv, -⟩ := h.continues.between hdb h'.continues hb₁ hb₃ hsame
    exact (h.floor b₁ hb₁ b₂ hb₂ huv).trans (h'.floor b₂ hb₂ b₃ hb₃ (hsame.trans huv.symm))
  gone r₁ hr₁ b₁ hb₁ b₃ hb₃ hin hsame := by
    obtain ⟨b₂, hb₂, huv, -⟩ := h.continues.between hdb h'.continues hb₁ hb₃ hsame
    have huv' := hsame.trans huv.symm
    have hid := (h.continues.same hdb hb₁ hb₂ huv).1
    have hle := h.modseq
    rcases h.gone r₁ hr₁ b₁ hb₁ b₂ hb₂ hin huv with ⟨r₂, hr₂, hrow⟩ | ⟨x, hx, hxb, hxu, hlt⟩ | hlt
    · rcases h'.gone r₂ hr₂ b₂ hb₂ b₃ hb₃ (hid.trans (hin.trans hrow.mailbox.symm)) huv' with
        ⟨r₃, hr₃, hrow'⟩ | ⟨x, hx, hxb, hxu, hlt⟩ | hlt
      · exact .inl ⟨r₃, hr₃, hrow.trans hrow'⟩
      · exact .inr (.inl ⟨x, hx, hxb.trans hrow.mailbox, hxu.trans hrow.uid, by omega⟩)
      · exact .inr (.inr (by omega))
    · rcases h'.kept x hx b₂ hb₂ b₃ hb₃ (hid.trans (hin.trans hxb.symm)) huv' with hx' | hcut
      · exact .inr (.inl ⟨x, hx', hxb, hxu, hlt⟩)
      · exact .inr (.inr (by omega))
    · have := h'.floor b₂ hb₂ b₃ hb₃ huv'
      exact .inr (.inr (by omega))
  kept x hx b₁ hb₁ b₃ hb₃ hin hsame := by
    obtain ⟨b₂, hb₂, huv, -⟩ := h.continues.between hdb h'.continues hb₁ hb₃ hsame
    have huv' := hsame.trans huv.symm
    have hid := (h.continues.same hdb hb₁ hb₂ huv).1
    rcases h.kept x hx b₁ hb₁ b₂ hb₂ hin huv with hx₂ | hcut
    · exact h'.kept x hx₂ b₂ hb₂ b₃ hb₃ (hid.trans hin) huv'
    · exact .inr (hcut.trans (h'.floor b₂ hb₂ b₃ hb₃ huv'))
  membership r₃ hr₃ := by
    have hle := h.modseq
    rcases h'.membership r₃ hr₃ with ⟨r₂, hr₂, hsame⟩ | hnew
    · rcases h.membership r₂ hr₂ with ⟨r₁, hr₁, hsame₁⟩ | hnew
      · exact .inl ⟨r₁, hr₁, hsame₁.row.trans hsame.row, hsame.deleted.trans hsame₁.deleted,
          hsame.keywords.trans hsame₁.keywords⟩
      · right
        intro m hm hid
        rcases h'.message m hm with hold | hlt
        · exact hnew m hold (hid.trans hsame.row.message)
        · omega
    · exact .inr fun m hm hid => hle.trans_lt (hnew m hm hid)
  message m hm := by
    have hle := h.modseq
    rcases h'.message m hm with hold | hlt
    · exact h.message m hold
    · exact .inr (by omega)

end Drifts

variable {u : CaseMap} {db : Db}

theorem commits_drifts {op : Op} {env : Env} {db' : Db} (hdb : Sound db)
    (h : Commits u op env db db') : Drifts db db' := by
  have hev := h.evolves hdb
  have hcont := h.continues hdb
  refine ⟨hcont, hev.modseq, fun b hb b' hb' hsame => ?_, fun r hr b hb b' hb' hin hsame => ?_,
    fun x hx b hb b' hb' hin hsame => ?_, fun r' hr' => ?_, fun m hm => ?_⟩
  · rcases hev.mailbox b' hb' with ⟨b₀, hb₀, hkin, -⟩ | ⟨-, -, -, hlt, -⟩
    · rw [hdb.distinct b hb b₀ hb₀ (hsame.symm.trans hkin.uidvalidity), hkin.floor]
    · have := hdb.uidvalidity b hb
      omega
  · rcases hev.gone r hr with hstay | htomb | hnone
    · exact .inl hstay
    · exact .inr (.inl htomb)
    · exact absurd ((hcont.same hdb hb hb' hsame).1.trans hin) (hnone b' hb')
  · rcases hev.kept x hx with hstay | hnone
    · exact .inl hstay
    · exact absurd ((hcont.same hdb hb hb' hsame).1.trans hin) (hnone b' hb')
  · rcases hev.membership r' hr' with ⟨r, hr, hrow, heq | ⟨hlt, hnew⟩⟩ | ⟨-, hlt, hnew⟩
    · rcases hev.keywords r'.messageId with hk | ⟨hlt, hnew⟩
      · exact .inl ⟨r, hr, hrow, by rw [heq], by rw [hk, heq]⟩
      · exact .inr fun m hm hid => hnew m hm hid ▸ hlt
    · exact .inr fun m hm hid => hnew m hm hid ▸ hlt
    · exact .inr fun m hm hid => hnew m hm hid ▸ hlt
  · rcases hev.message m hm with hold | ⟨hlt, heq⟩
    · exact .inl hold
    · exact .inr (heq ▸ hlt)

theorem retention_drifts (hdb : Sound db) (cutoffs : Cutoffs) :
    Drifts db (runRetention cutoffs db) := by
  have hswept := swept_runRetention cutoffs db
  have hlast : (runRetention cutoffs db).account.uidvalidityLast = db.account.uidvalidityLast := by
    rw [hswept.account]
  have hrow : ∀ b ∈ db.mailboxes, ∀ b' ∈ (runRetention cutoffs db).mailboxes,
      b'.uidvalidity = b.uidvalidity → Raised b b' := by
    intro b hb b' hb' hsame
    obtain ⟨b₀, hb₀, hraised⟩ := hswept.mailbox hb'
    rwa [hdb.distinct b₀ hb₀ b hb (hraised.uidvalidity.symm.trans hsame)] at hraised
  refine ⟨⟨hlast.ge, fun b' hb' => ?_, fun r hr b hb b' hb' hin hsame => ?_⟩, ?_,
    fun b hb b' hb' hsame => (hrow b hb b' hb' hsame).floor, fun r hr b hb b' hb' hin hsame => ?_,
    fun x hx b hb b' hb' hin hsame => ?_, fun r hr => ?_, fun m hm => ?_⟩
  · obtain ⟨b, hb, hraised⟩ := hswept.mailbox hb'
    exact .inl ⟨b, hb, hraised.id, hraised.uidvalidity, hraised.uidnext.ge⟩
  · exact .inl ⟨r, hswept.memberships ▸ hr, .refl r⟩
  · rw [hswept.account]
  · exact .inl ⟨r, hswept.memberships ▸ hr, .refl r⟩
  · rcases runRetention_expunged cutoffs hx with hstay | hcut
    · exact .inl hstay
    · exact .inr (hcut b' hb' ((hrow b hb b' hb' hsame).id.trans hin))
  · exact .inl ⟨r, hswept.memberships ▸ hr, .refl r, rfl, by rw [hswept.keywords]⟩
  · exact .inl (hswept.messages ▸ hm)

theorem history_drifts (hdb : Sound db) (events : List Event) :
    Sound (history u events db) ∧ Drifts db (history u events db) := by
  induction events generalizing db with
  | nil => exact ⟨hdb, .refl db hdb⟩
  | cons e events ih =>
    have hone : Sound (e.apply u db) ∧ Drifts db (e.apply u db) := by
      cases e with
      | call c =>
        rcases perform_cases u c db with hsame | ⟨i, hcommit⟩
        · rw [Event.apply, hsame]
          exact ⟨hdb, .refl db hdb⟩
        · exact ⟨hdb.commits hcommit, commits_drifts hdb hcommit⟩
      | retention cutoffs =>
        exact ⟨hdb.swept (swept_runRetention cutoffs db), retention_drifts hdb cutoffs⟩
    obtain ⟨hsound, hlater⟩ := ih hone.1
    exact ⟨hsound, hone.2.trans hdb hlater⟩

theorem mem_joinMessages_iff {p : Membership → Bool} {x : Membership × MessageRow} :
    x ∈ joinMessages p db ↔
      x.1 ∈ db.memberships ∧ p x.1 = true ∧ messageOf db x.1.messageId = some x.2 := by
  rw [joinMessages, List.mem_filterMap]
  constructor
  · rintro ⟨r, hr, hx⟩
    rw [Option.map_eq_some_iff] at hx
    obtain ⟨m, hm, rfl⟩ := hx
    rw [List.mem_filter] at hr
    exact ⟨hr.1, hr.2, hm⟩
  · rintro ⟨hr, hp, hm⟩
    exact ⟨x.1, List.mem_filter.mpr ⟨hr, hp⟩, by rw [hm, Option.map_some]⟩

def Listed (b : MailboxRow) (db : Db) (f : MessageFlags) : Prop :=
  ∃ r ∈ db.memberships, r.mailboxId = b.id ∧ ∃ m, messageOf db r.messageId = some m ∧
    f = ⟨r.uid, flagsOf db.keywords r, m.modseq⟩

theorem flagsOf_readAll {ids : List Id} (hids : ids.Nodup) {r : Membership} (hr : r.messageId ∈ ids) :
    flagsOf (readAll 0 ids (fun part db => db.keywords.filter fun k => part.contains k.messageId) db)
      r = flagsOf db.keywords r := by
  have hparts : (Table.chunk (max 1 (maxParamsPerStatement - 0)) ids).flatten.Nodup := by
    rwa [Table.flatten_chunk]
  have hin : r.messageId ∈ (Table.chunk (max 1 (maxParamsPerStatement - 0)) ids).flatten := by
    rwa [Table.flatten_chunk]
  have hkeywords := Table.filter_flatMap_parts (·.messageId) db.keywords hparts hin
  rw [flagsOf, flagsOf, readAll, hkeywords]

theorem fetchMessages_on {look : Lookup} {b : MailboxRow} (hb : look.find db = some b)
    (uids : List Nat) : ∃ fetched, (fetchMessages look uids).on db = .ok (some fetched) ∧
      ∀ f, f ∈ fetched ↔ Listed b db f ∧ f.uid ∈ uids := by
  rw [fetchMessages, Reads.on_select_bind]
  simp only [hb]
  split
  · rename_i hnil
    exact ⟨[], rfl, by simp [hnil]⟩
  · rw [on_chunks_bind]
    have hrows : ∀ p, p ∈ (readAll 1 uids (fun part =>
        joinMessages fun r => decide (r.mailboxId = b.id) && part.contains r.uid) db).insertionSort
          (fun p q => p.1.uid ≤ q.1.uid) ↔ p.1 ∈ db.memberships ∧ p.1.mailboxId = b.id ∧
        p.1.uid ∈ uids ∧ messageOf db p.1.messageId = some p.2 := by
      intro p
      rw [List.mem_insertionSort, readAll, List.mem_flatMap]
      simp only [mem_joinMessages_iff, Bool.and_eq_true, decide_eq_true_eq, List.contains_iff_mem]
      constructor
      · rintro ⟨part, hpart, hp, ⟨hmb, huid⟩, hm⟩
        exact ⟨hp, hmb, mem_chunk hpart huid, hm⟩
      · rintro ⟨hp, hmb, huid, hm⟩
        obtain ⟨part, hpart, huid⟩ := (exists_chunk _ uids p.1.uid).mpr huid
        exact ⟨part, hpart, hp, ⟨hmb, huid⟩, hm⟩
    generalize (readAll 1 uids (fun part =>
      joinMessages fun r => decide (r.mailboxId = b.id) && part.contains r.uid) db).insertionSort
        (fun p q => p.1.uid ≤ q.1.uid) = rows at hrows
    split
    · rename_i hnil
      refine ⟨[], rfl, fun f => iff_of_false (by simp) ?_⟩
      rintro ⟨⟨r, hr, hmb, m, hm, rfl⟩, huid⟩
      have := (hrows (r, m)).mpr ⟨hr, hmb, huid, hm⟩
      rw [hnil] at this
      cases this
    · rw [on_chunks_bind]
      have hflags : ∀ p ∈ rows, flagsOf (readAll 0 (rowIds rows)
          (fun part db => db.keywords.filter fun k => part.contains k.messageId) db) p.1 =
          flagsOf db.keywords p.1 := by
        intro p hp
        apply flagsOf_readAll (Table.nodup_eraseDups _)
        rw [List.mem_eraseDups]
        exact List.mem_map.mpr ⟨p, hp, rfl⟩
      refine ⟨_, rfl, fun f => ?_⟩
      rw [List.mem_map]
      constructor
      · rintro ⟨p, hp, rfl⟩
        obtain ⟨hr, hmb, huid, hm⟩ := (hrows p).mp hp
        exact ⟨⟨p.1, hr, hmb, p.2, hm, by rw [hflags p hp]⟩, huid⟩
      · rintro ⟨⟨r, hr, hmb, m, hm, rfl⟩, huid⟩
        have hp := (hrows (r, m)).mpr ⟨hr, hmb, huid, hm⟩
        exact ⟨(r, m), hp, by rw [hflags _ hp]⟩

theorem mem_changedUids {b : MailboxRow} {since uid : Nat} :
    uid ∈ changedUids b.id since db ↔ ∃ r ∈ db.memberships, r.mailboxId = b.id ∧
      (∃ m, messageOf db r.messageId = some m ∧ since < m.modseq) ∧ r.uid = uid := by
  rw [changedUids, sortUids, List.mem_insertionSort, List.mem_map]
  constructor
  · rintro ⟨p, hp, rfl⟩
    rw [List.mem_filter, mem_joinMessages_iff, decide_eq_true_eq, decide_eq_true_eq] at hp
    exact ⟨p.1, hp.1.1, hp.1.2.1, ⟨p.2, hp.1.2.2, hp.2⟩, rfl⟩
  · rintro ⟨r, hr, hmb, ⟨m, hm, hlt⟩, rfl⟩
    refine ⟨(r, m), ?_, rfl⟩
    rw [List.mem_filter, mem_joinMessages_iff, decide_eq_true_eq, decide_eq_true_eq]
    exact ⟨⟨hr, hmb, hm⟩, hlt⟩

theorem syncSince_on (hdb : Sound db) {look : Lookup} {b : MailboxRow} (hb : look.find db = some b)
    (req : SyncRequest) (hfloor : b.expungedFloor ≤ req.sinceModseq) (hall : req.vanishedOnly = false) :
    ∃ changed, (syncSince look req).on db =
        .ok (.sync (tombstonesSince b.id req.sinceModseq db) changed) ∧
      ∀ f, f ∈ changed ↔ Listed b db f ∧ req.sinceModseq < f.modseq := by
  have hchanged : ∀ f, Listed b db f →
      (f.uid ∈ changedUids b.id req.sinceModseq db ↔ req.sinceModseq < f.modseq) := by
    rintro f ⟨r, hr, hmb, m, hm, rfl⟩
    rw [mem_changedUids]
    constructor
    · rintro ⟨r', hr', hmb', ⟨m', hm', hlt⟩, huid⟩
      rw [hdb.membership_eq hr' hr (hmb'.trans hmb.symm) huid, hm] at hm'
      cases hm'
      exact hlt
    · intro hlt
      exact ⟨r, hr, hmb, ⟨m, hm, hlt⟩, rfl⟩
  rw [syncSince, Reads.on_select_bind]
  simp only [hb, vanishedSince, if_pos hfloor, vanishedFromTombstones, Reads.on_select_bind, hall,
    Bool.false_eq_true, if_false]
  split
  · rename_i hnil
    refine ⟨[], rfl, fun f => iff_of_false (by simp) ?_⟩
    rintro ⟨hlisted, hlt⟩
    have hin := (hchanged f hlisted).mpr hlt
    rw [hnil] at hin
    cases hin
  · obtain ⟨fetched, hfetch, hmem⟩ := fetchMessages_on hb (changedUids b.id req.sinceModseq db)
    refine ⟨fetched, ?_, fun f => ?_⟩
    · rw [Reads.on_bind, hfetch]
      rfl
    · rw [hmem]
      exact and_congr_right fun hlisted => hchanged f hlisted

theorem mem_tombstonesSince {b : Id} {since uid : Nat} : uid ∈ tombstonesSince b since db ↔
    ∃ x ∈ db.expunged, x.mailboxId = b ∧ since < x.modseq ∧ x.uid = uid := by
  rw [tombstonesSince, sortUids, List.mem_insertionSort, List.mem_map]
  simp [and_assoc]

theorem vanishedByDifference_on (b : MailboxRow) (known : Option (List SeqRange)) :
    ∃ vanished, (vanishedByDifference b known).on db = .ok vanished ∧
      ∀ uid, uid ∈ vanished ↔ matchSequenceSet (knownRanges b known) uid (b.uidnext - 1) = true ∧
        1 ≤ uid ∧ uid < b.uidnext ∧ uid ∉ presentUids b.id db := by
  refine ⟨_, rfl, fun uid => ?_⟩
  simp only [sortUids, List.mem_insertionSort, List.mem_flatMap, List.mem_filter, uidsOfRange,
    List.mem_range'_1, matchSequenceSet, List.any_eq_true, Bool.and_eq_true, decide_eq_true_eq,
    Bool.not_eq_true', List.contains_eq_mem, decide_eq_false_iff_not]
  constructor
  · rintro ⟨r, hr, ⟨hlo, hhi⟩, hnot⟩
    refine ⟨⟨r, hr, by omega, ?_⟩, by omega, by omega, hnot⟩
    change uid ≤ max _ _
    omega
  · rintro ⟨⟨r, hr, hlo, hhi⟩, hpos, hlt, hnot⟩
    change uid ≤ max _ _ at hhi
    exact ⟨r, hr, ⟨by omega, by omega⟩, hnot⟩

/-- The flags that a message has: its keywords, four of them under their names. -/
def heldFlags (keywords : List Keyword) (r : Membership) : List Property :=
  ((keywords.filter fun k => k.messageId = r.messageId).map fun k =>
      Property.text ((Assoc.get keywordFlags k.keyword).getD k.keyword)) ++
    if r.deleted then [Property.text "\\Deleted".toList] else []

def snapshot (b : MailboxRow) (db : Db) : List (Nat × List Property) :=
  (db.memberships.filter fun r => r.mailboxId = b.id).map fun r => (r.uid, heldFlags db.keywords r)

/-- No keyword of the messages that are newer than `since` is named like a key that every object
inherits. -/
def PlainSince (b : MailboxRow) (db : Db) (since : Nat) : Prop :=
  ∀ r ∈ db.memberships, r.mailboxId = b.id → ∀ m, messageOf db r.messageId = some m → since < m.modseq →
    ∀ k ∈ db.keywords, k.messageId = r.messageId → k.keyword ∉ inheritedKeys

theorem keywordToFlag_eq_iff (k : Text) :
    keywordToFlag k = .text ((Assoc.get keywordFlags k).getD k) ↔ k ∉ inheritedKeys := by
  have hown : ∀ key ∈ inheritedKeys, Assoc.get keywordFlags key = none := by decide
  rw [keywordToFlag, property]
  cases hget : Assoc.get keywordFlags k with
  | some t =>
    refine iff_of_true rfl fun hk => ?_
    rw [hown k hk] at hget
    cases hget
  | none => by_cases hk : k ∈ inheritedKeys <;> simp [hk]

theorem flagsOf_eq_iff (keywords : List Keyword) (r : Membership) :
    flagsOf keywords r = heldFlags keywords r ↔
      ∀ k ∈ keywords, k.messageId = r.messageId → k.keyword ∉ inheritedKeys := by
  rw [flagsOf, heldFlags, List.append_left_inj, List.map_inj_left]
  simp only [List.mem_filter, decide_eq_true_eq, and_imp, keywordToFlag_eq_iff]

def resynced (cache : List (Nat × List Property)) (vanished : List Nat) (changed : List MessageFlags) :
    List (Nat × List Property) :=
  (cache.filter fun p => !vanished.contains p.1 && !(changed.map (·.uid)).contains p.1) ++
    changed.map fun f => (f.uid, f.flags)

theorem mem_snapshot {b : MailboxRow} {p : Nat × List Property} : p ∈ snapshot b db ↔
    ∃ r ∈ db.memberships, r.mailboxId = b.id ∧ p = (r.uid, heldFlags db.keywords r) := by
  simp only [snapshot, List.mem_map, List.mem_filter, decide_eq_true_eq, and_assoc]
  simp only [eq_comm (a := p)]

theorem mem_resynced {cache : List (Nat × List Property)} {vanished : List Nat}
    {changed : List MessageFlags} {p : Nat × List Property} :
    p ∈ resynced cache vanished changed ↔
      (p ∈ cache ∧ p.1 ∉ vanished ∧ ∀ f ∈ changed, f.uid ≠ p.1) ∨
        ∃ f ∈ changed, (f.uid, f.flags) = p := by
  simp [resynced]

theorem plain_of_resynced {db₁ db₂ : Db} {b₁ b₂ : MailboxRow} {since : Nat}
    {changed : List MessageFlags} (hdb₂ : Sound db₂)
    (hchanged : ∀ f, f ∈ changed ↔ Listed b₂ db₂ f ∧ since < f.modseq)
    (hall : ∀ p, p ∈ resynced (snapshot b₁ db₁) (tombstonesSince b₂.id since db₂) changed ↔
      p ∈ snapshot b₂ db₂) : PlainSince b₂ db₂ since := by
  intro r hr hmb m hm hlt
  rw [← flagsOf_eq_iff]
  have hin := (hall (r.uid, flagsOf db₂.keywords r)).mp
    (mem_resynced.mpr (.inr ⟨_, (hchanged _).mpr ⟨⟨r, hr, hmb, m, hm, rfl⟩, hlt⟩, rfl⟩))
  obtain ⟨r', hr', hmb', heq⟩ := mem_snapshot.mp hin
  obtain ⟨huid, hflags⟩ := Prod.mk.inj heq
  rw [hflags, hdb₂.membership_eq hr hr' (hmb.trans hmb'.symm) huid]

section

variable {db₁ db₂ : Db} (hdb₁ : Sound db₁) (hdb₂ : Sound db₂) (h : Drifts db₁ db₂)
  {b₁ b₂ : MailboxRow}
  (hb₁ : b₁ ∈ db₁.mailboxes) (hb₂ : b₂ ∈ db₂.mailboxes) (hsame : b₂.uidvalidity = b₁.uidvalidity)
  {since : Nat} (hsince : since ≤ db₁.account.modseq) (hfloor : b₂.expungedFloor ≤ since)
include hdb₁ hdb₂ h hb₁ hb₂ hsame hsince hfloor

theorem tombstone_iff_absent {uid : Nat} (huid : uid ∈ presentUids b₁.id db₁) :
    uid ∈ tombstonesSince b₂.id since db₂ ↔ uid ∉ presentUids b₂.id db₂ := by
  have hid := (h.continues.same hdb₁ hb₁ hb₂ hsame).1
  obtain ⟨r₁, hr₁, rfl⟩ := List.mem_map.mp huid
  rw [List.mem_filter, decide_eq_true_eq] at hr₁
  rw [mem_tombstonesSince]
  constructor
  · rintro ⟨x, hx, hxb, -, hxu⟩ hin
    obtain ⟨r₂, hr₂, huid₂⟩ := List.mem_map.mp hin
    rw [List.mem_filter, decide_eq_true_eq] at hr₂
    exact hdb₂.apart x hx r₂ hr₂.1 (hr₂.2.trans hxb.symm) (huid₂.trans hxu.symm)
  · intro hnot
    rcases h.gone r₁ hr₁.1 b₁ hb₁ b₂ hb₂ hr₁.2.symm hsame with
      ⟨r₂, hr₂, hrow⟩ | ⟨x, hx, hxb, hxu, hlt⟩ | hlt
    · refine absurd (List.mem_map.mpr ⟨r₂, List.mem_filter.mpr ⟨hr₂, ?_⟩, hrow.uid⟩) hnot
      rw [decide_eq_true_eq, hrow.mailbox, hr₁.2, hid]
    · exact ⟨x, hx, hxb.trans (hr₁.2.trans hid.symm), by omega, hxu⟩
    · omega

theorem resynced_snapshot {changed : List MessageFlags}
    (hchanged : ∀ f, f ∈ changed ↔ Listed b₂ db₂ f ∧ since < f.modseq)
    (hplain : PlainSince b₂ db₂ since) (p : Nat × List Property) :
    p ∈ resynced (snapshot b₁ db₁) (tombstonesSince b₂.id since db₂) changed ↔
      p ∈ snapshot b₂ db₂ := by
  have hid := (h.continues.same hdb₁ hb₁ hb₂ hsame).1
  have hshown : ∀ r₂ ∈ db₂.memberships, r₂.mailboxId = b₂.id → ∀ m, messageOf db₂ r₂.messageId = some m →
      since < m.modseq → flagsOf db₂.keywords r₂ = heldFlags db₂.keywords r₂ := by
    intro r₂ hr₂ hmb m hm hlt
    exact (flagsOf_eq_iff _ _).mpr (hplain r₂ hr₂ hmb m hm hlt)
  rw [mem_resynced, mem_snapshot, mem_snapshot]
  -- A message that is not reported as changed has the flags it had.
  have hold : ∀ r₂ ∈ db₂.memberships, ∀ m, messageOf db₂ r₂.messageId = some m →
      ¬ since < m.modseq → ∃ r₁ ∈ db₁.memberships, SameFlags db₁ db₂ r₁ r₂ := by
    intro r₂ hr₂ m hm hle
    rcases h.membership r₂ hr₂ with hsame | hnew
    · exact hsame
    · have := hnew m (messageOf_spec hm).1 (messageOf_spec hm).2
      omega
  have hmessage : ∀ r₂ ∈ db₂.memberships, ∃ m, messageOf db₂ r₂.messageId = some m := by
    intro r₂ hr₂
    obtain ⟨m, hm, hmid⟩ := hdb₂.attached r₂ hr₂
    exact Option.isSome_iff_exists.mp (List.find?_isSome.mpr ⟨m, hm, by simpa using hmid⟩)
  have hflags : ∀ {r₁ r₂}, SameFlags db₁ db₂ r₁ r₂ →
      heldFlags db₂.keywords r₂ = heldFlags db₁.keywords r₁ := by
    intro r₁ r₂ hsf
    rw [heldFlags, heldFlags, hsf.keywords, hsf.deleted]
  constructor
  · rintro (⟨⟨r₁, hr₁, hmb, rfl⟩, hnot, hfresh⟩ | ⟨f, hf, rfl⟩)
    · have huid : r₁.uid ∈ presentUids b₁.id db₁ :=
        List.mem_map.mpr ⟨r₁, List.mem_filter.mpr ⟨hr₁, by simpa using hmb⟩, rfl⟩
      have hin := (tombstone_iff_absent hdb₁ hdb₂ h hb₁ hb₂ hsame hsince hfloor huid).not.mp hnot
      rw [not_not] at hin
      obtain ⟨r₂, hr₂, huid₂⟩ := List.mem_map.mp hin
      rw [List.mem_filter, decide_eq_true_eq] at hr₂
      obtain ⟨m, hm⟩ := hmessage r₂ hr₂.1
      have hle : ¬ since < m.modseq := fun hlt =>
        hfresh _ ((hchanged _).mpr ⟨⟨r₂, hr₂.1, hr₂.2, m, hm, rfl⟩, hlt⟩) huid₂
      obtain ⟨r, hr, hsf⟩ := hold r₂ hr₂.1 m hm hle
      have heq : r = r₁ := hdb₁.membership_eq hr hr₁
        (hsf.row.mailbox.symm.trans (hr₂.2.trans (hid.trans hmb.symm)))
        (hsf.row.uid.symm.trans huid₂)
      exact ⟨r₂, hr₂.1, hr₂.2, by rw [hflags hsf, heq, huid₂]⟩
    · obtain ⟨⟨r₂, hr₂, hmb, m, hm, rfl⟩, hlt⟩ := (hchanged f).mp hf
      exact ⟨r₂, hr₂, hmb, by rw [hshown r₂ hr₂ hmb m hm hlt]⟩
  · rintro ⟨r₂, hr₂, hmb, rfl⟩
    obtain ⟨m, hm⟩ := hmessage r₂ hr₂
    by_cases hlt : since < m.modseq
    · exact .inr ⟨_, (hchanged _).mpr ⟨⟨r₂, hr₂, hmb, m, hm, rfl⟩, hlt⟩,
        by rw [hshown r₂ hr₂ hmb m hm hlt]⟩
    · obtain ⟨r₁, hr₁, hsf⟩ := hold r₂ hr₂ m hm hlt
      refine .inl ⟨⟨r₁, hr₁, hsf.row.mailbox.symm.trans (hmb.trans hid), ?_⟩, ?_, ?_⟩
      · rw [hflags hsf, hsf.row.uid]
      · rw [mem_tombstonesSince]
        rintro ⟨x, hx, hxb, -, hxu⟩
        exact hdb₂.apart x hx r₂ hr₂ (hmb.trans hxb.symm) hxu.symm
      · intro f hf huid
        obtain ⟨⟨r, hr, hmb', m', hm', rfl⟩, hlt'⟩ := (hchanged f).mp hf
        rw [hdb₂.membership_eq hr hr₂ (hmb'.trans hmb.symm) huid, hm] at hm'
        cases hm'
        exact hlt hlt'

end

theorem history_append (u : CaseMap) (before after : List Event) (db : Db) :
    history u (before ++ after) db = history u after (history u before db) :=
  List.foldl_append

/-- Draws of a test run: ids of two letters, of which call `n` has its own. -/
def testDraws (n : Nat) : Nat → Env := fun i =>
  ⟨0, fun j => [Char.ofNat (97 + 2 * n + i), Char.ofNat (97 + j)]⟩

def testAppend (n : Nat) : Event :=
  .call ⟨.appendMessages [{ mailboxIds := [['i']], blobId := ['b'], sizeBytes := 5, receivedAt := 0 }],
    testDraws n⟩

def testAfter : List Event :=
  [.call ⟨.setDeleted ['i'] [1] true, testDraws 1⟩, .call ⟨.expunge ['i'] none, testDraws 2⟩,
    testAppend 3]

def testBox : MailboxRow := { id := ['i'], name := "INBOX".toList, uidvalidity := 1 }

end Ionosphere.Server
