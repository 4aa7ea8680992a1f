import Ionosphere.Store.Committed

/-! `runRetention`: the change log, the tombstones and the thread references are cut off at a
time. The floors go up before the rows go, in batches of their own, and what they go up to is
read before that; tables that no other part of this development reads are left out. -/
namespace Ionosphere.Store

open Ionosphere.Js Ionosphere.Lib

/-- Rows made before these times are expired. -/
structure Cutoffs where
  changeLog : Nat
  expunged : Nat
  threadRefs : Nat
  deriving DecidableEq

def maxModseq (modseqs : List Nat) : Nat := modseqs.foldl max 0

/-- `SELECT MAX(modseq) … WHERE created_at < ? GROUP BY account_id`; no group without rows. -/
def expiredFloor (cutoff : Nat) (db : Db) : Option Nat :=
  match db.changeLog.filter fun r => r.createdAt < cutoff with
  | [] => none
  | rows => some (maxModseq (rows.map (·.modseq)))

/-- `UPDATE … SET changelog_floor = ? WHERE changelog_floor < ?`. -/
def raiseChangelogFloor (floor : Option Nat) (db : Db) : Db :=
  match floor with
  | none => db
  | some n =>
    if db.account.changelogFloor < n then
      { db with account := { db.account with changelogFloor := n } }
    else db

/-- The same of the tombstones, `GROUP BY mailbox_id`. -/
def expiredMailboxFloors (cutoff : Nat) (db : Db) : List (Id × Nat) :=
  let rows := db.expunged.filter fun x => x.createdAt < cutoff
  (rows.map (·.mailboxId)).eraseDups.map fun b =>
    (b, maxModseq ((rows.filter fun x => x.mailboxId = b).map (·.modseq)))

def MailboxRow.raiseFloor (b : MailboxRow) (p : Id × Nat) : MailboxRow :=
  if b.id = p.1 ∧ b.expungedFloor < p.2 then { b with expungedFloor := p.2 } else b

def raiseExpungedFloors (floors : List (Id × Nat)) (db : Db) : Db :=
  { db with mailboxes := db.mailboxes.map fun b => floors.foldl MailboxRow.raiseFloor b }

def deleteExpired (cutoffs : Cutoffs) (db : Db) : Db :=
  { db with
    changeLog := db.changeLog.filter fun r => cutoffs.changeLog ≤ r.createdAt
    expunged := db.expunged.filter fun x => cutoffs.expunged ≤ x.createdAt
    threadRefs := db.threadRefs.filter fun r => cutoffs.threadRefs ≤ r.createdAt }

def runRetention (cutoffs : Cutoffs) (db : Db) : Db :=
  let db₁ := raiseChangelogFloor (expiredFloor cutoffs.changeLog db) db
  let db₂ := raiseExpungedFloors (expiredMailboxFloors cutoffs.expunged db₁) db₁
  deleteExpired cutoffs db₂

theorem le_foldl_max (xs : List Nat) (m : Nat) : m ≤ xs.foldl max m := by
  induction xs generalizing m with
  | nil => exact Nat.le_refl _
  | cons x xs ih => exact (Nat.le_max_left m x).trans (ih _)

theorem le_maxModseq {xs : List Nat} {x : Nat} (h : x ∈ xs) : x ≤ maxModseq xs := by
  have hall : ∀ (xs : List Nat) (m : Nat), x ∈ xs → x ≤ xs.foldl max m := by
    intro xs
    induction xs with
    | nil => intro m h; cases h
    | cons y ys ih =>
      intro m h
      rcases List.mem_cons.mp h with rfl | h
      · exact (Nat.le_max_right m x).trans (le_foldl_max ys _)
      · exact ih _ h
  exact hall xs 0 h

def TombsCovered (cutoff : Nat) (db : Db) : Prop :=
  ∀ x ∈ db.expunged, x.createdAt < cutoff → ∀ b ∈ db.mailboxes, b.id = x.mailboxId →
    x.modseq ≤ b.expungedFloor

theorem le_expiredFloor {cutoff : Nat} {db : Db} {r : ChangeRow} (hr : r ∈ db.changeLog)
    (hold : r.createdAt < cutoff) : ∃ n, expiredFloor cutoff db = some n ∧ r.modseq ≤ n := by
  have hin : r ∈ db.changeLog.filter fun r => r.createdAt < cutoff :=
    List.mem_filter.mpr ⟨hr, by simpa using hold⟩
  rw [expiredFloor]
  split
  · rename_i hnil
    rw [hnil] at hin
    cases hin
  · exact ⟨_, rfl, le_maxModseq (List.mem_map_of_mem hin)⟩

theorem MailboxRow.raiseFloor_le (b : MailboxRow) (p : Id × Nat) :
    b.expungedFloor ≤ (b.raiseFloor p).expungedFloor := by
  rw [MailboxRow.raiseFloor]
  split
  · rename_i h
    exact h.2.le
  · exact Nat.le_refl _

/-- A row with another floor. -/
structure Raised (b b' : MailboxRow) : Prop where
  id : b'.id = b.id
  uidvalidity : b'.uidvalidity = b.uidvalidity
  uidnext : b'.uidnext = b.uidnext
  name : (b'.parentId, b'.name) = (b.parentId, b.name)
  floor : b.expungedFloor ≤ b'.expungedFloor

theorem raised_raiseFloor (b : MailboxRow) (p : Id × Nat) : Raised b (b.raiseFloor p) := by
  refine ⟨?_, ?_, ?_, ?_, b.raiseFloor_le p⟩ <;>
    · rw [MailboxRow.raiseFloor]
      split <;> rfl

theorem Raised.refl (b : MailboxRow) : Raised b b := ⟨rfl, rfl, rfl, rfl, Nat.le_refl _⟩

theorem Raised.trans {b b' b'' : MailboxRow} (h : Raised b b') (h' : Raised b' b'') :
    Raised b b'' :=
  ⟨h'.id.trans h.id, h'.uidvalidity.trans h.uidvalidity, h'.uidnext.trans h.uidnext,
    h'.name.trans h.name, h.floor.trans h'.floor⟩

theorem raised_foldl (floors : List (Id × Nat)) (b : MailboxRow) :
    Raised b (floors.foldl MailboxRow.raiseFloor b) := by
  induction floors generalizing b with
  | nil => exact .refl b
  | cons p floors ih => exact (raised_raiseFloor b p).trans (ih _)

theorem le_foldl_raiseFloor {floors : List (Id × Nat)} {b : MailboxRow} {n : Nat}
    (h : (b.id, n) ∈ floors) : n ≤ (floors.foldl MailboxRow.raiseFloor b).expungedFloor := by
  induction floors generalizing b with
  | nil => cases h
  | cons p floors ih =>
    rw [List.foldl_cons]
    rcases List.mem_cons.mp h with rfl | h
    · refine le_trans ?_ (raised_foldl floors _).floor
      rw [MailboxRow.raiseFloor]
      split
      · exact Nat.le_refl _
      · rename_i hnot
        simp only [true_and, Nat.not_lt] at hnot
        exact hnot
    · refine ih ?_
      rw [(raised_raiseFloor b p).id]
      exact h

theorem mem_expiredMailboxFloors {cutoff : Nat} {db : Db} {x : Expunged} (hx : x ∈ db.expunged)
    (hold : x.createdAt < cutoff) :
    ∃ n, (x.mailboxId, n) ∈ expiredMailboxFloors cutoff db ∧ x.modseq ≤ n := by
  have hin : x ∈ db.expunged.filter fun x => x.createdAt < cutoff :=
    List.mem_filter.mpr ⟨hx, by simpa using hold⟩
  refine ⟨_, List.mem_map.mpr ⟨x.mailboxId, ?_, rfl⟩, le_maxModseq ?_⟩
  · rw [List.mem_eraseDups]
    exact List.mem_map_of_mem hin
  · exact List.mem_map_of_mem (List.mem_filter.mpr ⟨hin, by simp⟩)

theorem tombsCovered_raise (cutoff : Nat) (db : Db) :
    TombsCovered cutoff (raiseExpungedFloors (expiredMailboxFloors cutoff db) db) := by
  intro x hx hold b hb hid
  obtain ⟨b₀, -, rfl⟩ := List.mem_map.mp hb
  obtain ⟨n, hn, hle⟩ := mem_expiredMailboxFloors hx hold
  rw [(raised_foldl _ b₀).id] at hid
  exact hle.trans (le_foldl_raiseFloor (hid ▸ hn))

/-- Floors and expired rows apart, nothing is different. -/
structure Swept (db db' : Db) : Prop where
  account : db'.account = { db.account with changelogFloor := db'.account.changelogFloor }
  mailboxes : ∃ f : MailboxRow → MailboxRow, (∀ b, Raised b (f b)) ∧
    db'.mailboxes = db.mailboxes.map f
  messages : db'.messages = db.messages
  memberships : db'.memberships = db.memberships
  keywords : db'.keywords = db.keywords
  addresses : db'.addresses = db.addresses
  headers : db'.headers = db.headers
  blobRefs : db'.blobRefs = db.blobRefs
  claims : db'.claims = db.claims
  expunged : db'.expunged.Sublist db.expunged
  changeLog : db'.changeLog.Sublist db.changeLog

theorem Swept.trans {db db' db'' : Db} (h : Swept db db') (h' : Swept db' db'') : Swept db db'' := by
  obtain ⟨f, hf, hmap⟩ := h.mailboxes
  obtain ⟨g, hg, hmap'⟩ := h'.mailboxes
  refine ⟨?_, ⟨g ∘ f, fun b => (hf b).trans (hg (f b)), ?_⟩, h'.messages.trans h.messages,
    h'.memberships.trans h.memberships, h'.keywords.trans h.keywords, h'.addresses.trans h.addresses,
    h'.headers.trans h.headers, h'.blobRefs.trans h.blobRefs, h'.claims.trans h.claims,
    h'.expunged.trans h.expunged, h'.changeLog.trans h.changeLog⟩
  · rw [h'.account, h.account]
  · rw [hmap', hmap, List.map_map]

theorem swept_raiseChangelogFloor (floor : Option Nat) (db : Db) :
    Swept db (raiseChangelogFloor floor db) := by
  have hsame : ∀ a : AccountRow, Swept db { db with account := { db.account with changelogFloor := a.changelogFloor } } :=
    fun a => ⟨rfl, ⟨id, Raised.refl, by simp⟩, rfl, rfl, rfl, rfl, rfl, rfl, rfl, .refl _, .refl _⟩
  rw [raiseChangelogFloor.eq_def]
  dsimp only
  split
  · exact hsame db.account
  · split
    · rename_i n _
      exact hsame { changelogFloor := n }
    · exact hsame db.account

theorem swept_raiseExpungedFloors (floors : List (Id × Nat)) (db : Db) :
    Swept db (raiseExpungedFloors floors db) :=
  ⟨rfl, ⟨_, raised_foldl floors, rfl⟩, rfl, rfl, rfl, rfl, rfl, rfl, rfl, .refl _, .refl _⟩

theorem swept_deleteExpired (cutoffs : Cutoffs) (db : Db) : Swept db (deleteExpired cutoffs db) :=
  ⟨rfl, ⟨id, Raised.refl, by simp [deleteExpired]⟩, rfl, rfl, rfl, rfl, rfl, rfl, rfl,
    List.filter_sublist, List.filter_sublist⟩

theorem swept_runRetention (cutoffs : Cutoffs) (db : Db) : Swept db (runRetention cutoffs db) :=
  ((swept_raiseChangelogFloor _ db).trans (swept_raiseExpungedFloors _ _)).trans
    (swept_deleteExpired cutoffs _)

theorem Swept.mailbox {db db' : Db} (h : Swept db db') {b' : MailboxRow} (hb' : b' ∈ db'.mailboxes) :
    ∃ b ∈ db.mailboxes, Raised b b' := by
  obtain ⟨f, hf, hmap⟩ := h.mailboxes
  rw [hmap] at hb'
  obtain ⟨b, hb, rfl⟩ := List.mem_map.mp hb'
  exact ⟨b, hb, hf b⟩

theorem Swept.stays {db db' : Db} (h : Swept db db') {b : MailboxRow} (hb : b ∈ db.mailboxes) :
    ∃ b' ∈ db'.mailboxes, Raised b b' := by
  obtain ⟨f, hf, hmap⟩ := h.mailboxes
  exact ⟨f b, hmap ▸ List.mem_map_of_mem hb, hf b⟩

theorem Swept.keyed {db db' : Db} (h : Swept db db') (hdb : Keyed db) : Keyed db' := by
  obtain ⟨f, hf, hmap⟩ := h.mailboxes
  refine ⟨?_, ?_, h.messages ▸ hdb.message, h.memberships ▸ hdb.uid, h.memberships ▸ hdb.membership,
    h.keywords ▸ hdb.keyword, h.addresses ▸ hdb.address, h.headers ▸ hdb.header,
    h.blobRefs ▸ hdb.blobRef, hdb.expunged.sublist (h.expunged.map _),
    hdb.change.sublist (h.changeLog.map _), h.claims ▸ hdb.claim⟩
  · rw [hmap, List.map_map]
    have hids : (fun b : MailboxRow => b.id) ∘ f = fun b => b.id := funext fun b => (hf b).id
    rw [hids]
    exact hdb.mailbox
  · rw [hmap, List.map_map]
    have hnames : (fun b : MailboxRow => (b.parentId, b.name)) ∘ f = fun b => (b.parentId, b.name) :=
      funext fun b => (hf b).name
    rw [hnames]
    exact hdb.mailboxName

theorem Sound.swept {db db' : Db} (hdb : Sound db) (h : Swept db db') : Sound db' := by
  have hmodseq : db'.account.modseq = db.account.modseq := by rw [h.account]
  have hlast : db'.account.uidvalidityLast = db.account.uidvalidityLast := by rw [h.account]
  have hplace : ∀ {id : Id} {uid : Nat}, (∃ b ∈ db.mailboxes, b.id = id ∧ uid < b.uidnext) →
      ∃ b' ∈ db'.mailboxes, b'.id = id ∧ uid < b'.uidnext := by
    rintro id uid ⟨b, hb, hid, hlt⟩
    obtain ⟨b', hb', hraised⟩ := h.stays hb
    exact ⟨b', hb', hraised.id.trans hid, hraised.uidnext ▸ hlt⟩
  refine ⟨h.keyed hdb.keyed, fun r hr => ?_, fun r hr => ?_, fun x hx => ?_, fun x hx r hr => ?_,
    fun m hm => ?_, fun x hx => ?_, fun b' hb' => ?_, fun b₁ hb₁ b₂ hb₂ heq => ?_, fun b' hb' => ?_,
    fun r hr => ?_⟩
  · rw [h.messages]
    exact hdb.attached r (h.memberships ▸ hr)
  · exact hplace (hdb.membership r (h.memberships ▸ hr))
  · exact hplace (hdb.expunged x (h.expunged.subset hx))
  · exact hdb.apart x (h.expunged.subset hx) r (h.memberships ▸ hr)
  · rw [hmodseq]
    exact hdb.messages m (h.messages ▸ hm)
  · rw [hmodseq]
    exact hdb.tombs x (h.expunged.subset hx)
  · obtain ⟨b, hb, hraised⟩ := h.mailbox hb'
    rw [hlast, hraised.uidvalidity]
    exact hdb.uidvalidity b hb
  · obtain ⟨a₁, ha₁, h₁⟩ := h.mailbox hb₁
    obtain ⟨a₂, ha₂, h₂⟩ := h.mailbox hb₂
    have ha := hdb.distinct a₁ ha₁ a₂ ha₂ (h₁.uidvalidity.symm.trans (heq.trans h₂.uidvalidity))
    exact List.inj_on_of_nodup_map (h.keyed hdb.keyed).mailbox hb₁ hb₂
      (h₁.id.trans (ha ▸ h₂.id.symm))
  · obtain ⟨b, hb, hraised⟩ := h.mailbox hb'
    rw [hraised.uidnext]
    exact hdb.uidnext b hb
  · exact hdb.positive r (h.memberships ▸ hr)

theorem runRetention_expunged (cutoffs : Cutoffs) {db : Db} {x : Expunged} (hx : x ∈ db.expunged) :
    x ∈ (runRetention cutoffs db).expunged ∨ ∀ b ∈ (runRetention cutoffs db).mailboxes,
      b.id = x.mailboxId → x.modseq ≤ b.expungedFloor := by
  have hx₁ : x ∈ (raiseChangelogFloor (expiredFloor cutoffs.changeLog db) db).expunged := by
    rw [raiseChangelogFloor.eq_def]
    dsimp only
    split
    · exact hx
    · split <;> exact hx
  by_cases hold : x.createdAt < cutoffs.expunged
  · right
    intro b hb hid
    exact tombsCovered_raise cutoffs.expunged _ x hx₁ hold b hb hid
  · exact .inl (List.mem_filter.mpr ⟨hx₁, by simpa using hold⟩)

end Ionosphere.Store
