import Ionosphere.Store.Stamps

/-! What the statements of a batch touch, and what that does to each table. A plan is
judged by its statements alone; what the tables look like afterwards follows from here. -/
namespace Ionosphere.Store

open Ionosphere.Js Ionosphere.Lib

variable {stmts : List Stmt} {α : Type} {t : List Membership} {s : Stmt} {id : Id} {x : Expunged}
  {next now : Nat}

namespace Stmt

@[simp] def Removes (b : Id) (uid : Nat) : Stmt → Prop
  | deleteMemberships mailboxId uids => b = mailboxId ∧ uid ∈ uids
  | deleteMailboxMemberships mailboxId => b = mailboxId
  | _ => False

@[simp] def Inserts (r : Membership) : Stmt → Prop
  | insertMemberships rows => r ∈ rows
  | _ => False

/-- `\Deleted` of the membership with this uid is set or reset. -/
@[simp] def Marks (b : Id) (uid : Nat) : Stmt → Prop
  | setDeleted _ mailboxId uids => b = mailboxId ∧ uid ∈ uids
  | _ => False

@[simp] def Buries (x : Expunged) : Stmt → Prop
  | insertExpunged rows => x ∈ rows
  | _ => False

@[simp] def Clears (b : Id) : Stmt → Prop
  | deleteExpunged mailboxId => b = mailboxId
  | _ => False

@[simp] def Closes (b : Id) : Stmt → Prop
  | deleteMailbox id => b = id
  | _ => False

@[simp] def Opens (row : MailboxRow) : Stmt → Prop
  | insertMailbox r => row = r
  | _ => False

@[simp] def Sets (b : Id) : Stmt → Prop
  | updateMailbox id _ => b = id
  | _ => False

/-- `uidnext` becomes `n`. -/
@[simp] def Advances (b : Id) (n : Nat) : Stmt → Prop
  | updateMailbox id set => b = id ∧ set.uidnext = some n
  | _ => False

@[simp] def Adds (m : MessageRow) : Stmt → Prop
  | insertMessages rows => m ∈ rows
  | _ => False

@[simp] def Destroys (id : Id) : Stmt → Prop
  | deleteMessages ids => id ∈ ids
  | _ => False

@[simp] def Renews (id : Id) : Stmt → Prop
  | insertMessages rows => ∃ m ∈ rows, m.id = id
  | setModseq _ ids => id ∈ ids
  | deleteMessages ids => id ∈ ids
  | _ => False

@[simp] def Flags (id : Id) : Stmt → Prop
  | insertKeywords rows => ∃ k ∈ rows, k.messageId = id
  | deleteKeywords messageId _ => messageId = id
  | deleteMessageKeywords ids => id ∈ ids
  | _ => False

/-- `uidvalidity_last` becomes `v`. -/
@[simp] def Ages (v : Nat) : Stmt → Prop
  | updateAccount set => set.uidvalidityLast = some v
  | _ => False

@[simp] def Counts : Stmt → Prop
  | updateAccount _ => True
  | _ => False

@[simp] def Logs (row : ChangeRow) : Stmt → Prop
  | changeLog r => row = r
  | _ => False

end Stmt

def Sends (P : Stmt → Prop) (stmts : List Stmt) : Prop := ∃ s ∈ stmts, P s

section

variable {P : Stmt → Prop}

@[simp] theorem sends_nil : ¬ Sends P [] := by simp [Sends]

@[simp] theorem sends_cons (s : Stmt) (stmts : List Stmt) :
    Sends P (s :: stmts) ↔ P s ∨ Sends P stmts := by simp [Sends]

@[simp] theorem sends_append (as bs : List Stmt) :
    Sends P (as ++ bs) ↔ Sends P as ∨ Sends P bs := by simp [Sends, or_and_right, exists_or]

@[simp] theorem sends_map (g : α → Stmt) (xs : List α) :
    Sends P (xs.map g) ↔ ∃ x ∈ xs, P (g x) := by simp [Sends]

@[simp] theorem sends_flatMap (g : α → List Stmt) (xs : List α) :
    Sends P (xs.flatMap g) ↔ ∃ x ∈ xs, Sends P (g x) := by
  constructor
  · rintro ⟨s, hs, hP⟩
    obtain ⟨x, hx, hs⟩ := List.mem_flatMap.mp hs
    exact ⟨x, hx, s, hs, hP⟩
  · rintro ⟨x, hx, s, hs, hP⟩
    exact ⟨s, List.mem_flatMap.mpr ⟨x, hx, hs⟩, hP⟩

theorem sends_ite {c : Prop} [Decidable c] (as bs : List Stmt) :
    Sends P (if c then as else bs) ↔ c ∧ Sends P as ∨ ¬ c ∧ Sends P bs := by
  by_cases hc : c <;> simp [hc]

end

theorem exists_chunk (size : Nat) (xs : List α) (x : α) :
    (∃ part ∈ Table.chunk size xs, x ∈ part) ↔ x ∈ xs := by
  rw [← List.mem_flatten, Table.flatten_chunk]

theorem exists_chunk_and (size : Nat) (xs : List α) (x : α) (c : Prop) :
    (∃ part ∈ Table.chunk size xs, c ∧ x ∈ part) ↔ c ∧ x ∈ xs := by
  rw [← exists_chunk size xs x]
  constructor
  · rintro ⟨part, hpart, hc, hx⟩
    exact ⟨hc, part, hpart, hx⟩
  · rintro ⟨hc, part, hpart, hx⟩
    exact ⟨part, hpart, hc, hx⟩

theorem exists_chunk_mem (size : Nat) (xs : List α) (Q : α → Prop) :
    (∃ part ∈ Table.chunk size xs, ∃ x ∈ part, Q x) ↔ ∃ x ∈ xs, Q x := by
  constructor
  · rintro ⟨part, hpart, x, hx, hQ⟩
    exact ⟨x, mem_chunk hpart hx, hQ⟩
  · rintro ⟨x, hx, hQ⟩
    obtain ⟨part, hpart, hxp⟩ := (exists_chunk size xs x).mpr hx
    exact ⟨part, hpart, x, hxp, hQ⟩

/-- The same membership, up to `\Deleted`. -/
structure SameRow (r r' : Membership) : Prop where
  mailbox : r'.mailboxId = r.mailboxId
  uid : r'.uid = r.uid
  message : r'.messageId = r.messageId

theorem SameRow.refl (r : Membership) : SameRow r r := ⟨rfl, rfl, rfl⟩

theorem SameRow.trans {r r' r'' : Membership} (h : SameRow r r') (h' : SameRow r' r'') :
    SameRow r r'' :=
  ⟨h'.mailbox.trans h.mailbox, h'.uid.trans h.uid, h'.message.trans h.message⟩

theorem mem_onMemberships {r' : Membership}
    (h : r' ∈ s.onMemberships t) :
    ∃ r, (r ∈ t ∧ ¬ s.Removes r.mailboxId r.uid ∨ s.Inserts r) ∧ SameRow r r' ∧
      (¬ s.Marks r.mailboxId r.uid → r' = r) := by
  cases s with
  | insertMemberships rows =>
    refine ⟨r', ?_, .refl r', fun _ => rfl⟩
    simpa [Stmt.onMemberships, Stmt.Removes, Stmt.Inserts] using h
  | setDeleted deleted mailboxId uids =>
    simp only [Stmt.onMemberships, List.mem_map] at h
    obtain ⟨r, hr, rfl⟩ := h
    refine ⟨r, .inl ⟨hr, id⟩, ?_, fun hmark => ?_⟩
    · split <;> exact ⟨rfl, rfl, rfl⟩
    · rw [if_neg]
      simpa [Stmt.Marks] using hmark
  | deleteMemberships mailboxId uids =>
    simp only [Stmt.onMemberships, List.mem_filter] at h
    refine ⟨r', .inl ⟨h.1, fun hgone => ?_⟩, .refl r', fun _ => rfl⟩
    simpa [hgone.1, hgone.2] using h.2
  | deleteMailboxMemberships mailboxId =>
    simp only [Stmt.onMemberships, List.mem_filter] at h
    refine ⟨r', .inl ⟨h.1, ?_⟩, .refl r', fun _ => rfl⟩
    simpa [Stmt.Removes] using h.2
  | _ => exact ⟨r', .inl ⟨h, id⟩, .refl r', fun _ => rfl⟩

theorem memberships_from {r' : Membership}
    (h : r' ∈ across Stmt.onMemberships stmts t) :
    ∃ r, (r ∈ t ∧ ¬ Sends (Stmt.Removes r.mailboxId r.uid) stmts ∨ Sends (Stmt.Inserts r) stmts) ∧
      SameRow r r' ∧ (¬ Sends (Stmt.Marks r.mailboxId r.uid) stmts → r' = r) := by
  induction stmts generalizing t with
  | nil => exact ⟨r', .inl ⟨h, by simp⟩, .refl r', fun _ => rfl⟩
  | cons s stmts ih =>
    obtain ⟨r₁, hfrom, hsame, hmark⟩ := ih h
    simp only [sends_cons, not_or]
    rcases hfrom with ⟨hr₁, hkeep⟩ | hin
    · obtain ⟨r, hfrom', hsame', hmark'⟩ := mem_onMemberships hr₁
      rw [hsame'.mailbox, hsame'.uid] at hkeep hmark
      refine ⟨r, ?_, hsame'.trans hsame, fun hnot => (hmark hnot.2).trans (hmark' hnot.1)⟩
      rcases hfrom' with ⟨hr, hkeep'⟩ | hin
      · exact .inl ⟨hr, hkeep', hkeep⟩
      · exact .inr (.inl hin)
    · exact ⟨r₁, .inr (.inr hin), hsame, fun hnot => hmark hnot.2⟩

theorem onMemberships_mem {r : Membership} (hr : r ∈ t)
    (hkeep : ¬ s.Removes r.mailboxId r.uid) : ∃ r' ∈ s.onMemberships t, SameRow r r' := by
  cases s with
  | insertMemberships rows => exact ⟨r, List.mem_append_left _ hr, .refl r⟩
  | setDeleted deleted mailboxId uids =>
    refine ⟨_, List.mem_map_of_mem hr, ?_⟩
    split <;> exact ⟨rfl, rfl, rfl⟩
  | deleteMemberships mailboxId uids =>
    refine ⟨r, List.mem_filter.mpr ⟨hr, ?_⟩, .refl r⟩
    by_cases hb : r.mailboxId = mailboxId
    · have huid : r.uid ∉ uids := fun hu => hkeep ⟨hb, hu⟩
      simp [huid]
    · simp [hb]
  | deleteMailboxMemberships mailboxId =>
    refine ⟨r, List.mem_filter.mpr ⟨hr, ?_⟩, .refl r⟩
    simpa [Stmt.Removes] using hkeep
  | _ => exact ⟨r, hr, .refl r⟩

theorem memberships_stay {r : Membership} (hr : r ∈ t)
    (hkeep : ¬ Sends (Stmt.Removes r.mailboxId r.uid) stmts) :
    ∃ r' ∈ across Stmt.onMemberships stmts t, SameRow r r' := by
  induction stmts generalizing t r with
  | nil => exact ⟨r, hr, .refl r⟩
  | cons s stmts ih =>
    rw [sends_cons, not_or] at hkeep
    obtain ⟨r₁, hr₁, hsame⟩ := onMemberships_mem hr hkeep.1
    obtain ⟨r', hr', hsame'⟩ := ih hr₁ (by rw [hsame.mailbox, hsame.uid]; exact hkeep.2)
    exact ⟨r', hr', hsame.trans hsame'⟩

theorem memberships_same (hkeep : ∀ r ∈ t, r.messageId = id →
    ¬ Sends (Stmt.Removes r.mailboxId r.uid) stmts ∧
      ¬ Sends (Stmt.Marks r.mailboxId r.uid) stmts)
    (hnew : ∀ r, r.messageId = id → ¬ Sends (Stmt.Inserts r) stmts) :
    ((across Stmt.onMemberships stmts t).filter fun r => r.messageId = id) =
      t.filter fun r => r.messageId = id := by
  induction stmts generalizing t with
  | nil => rfl
  | cons s stmts ih =>
    simp only [sends_cons, not_or] at hkeep hnew
    have hlater : ∀ r' ∈ s.onMemberships t, r'.messageId = id →
        ¬ Sends (Stmt.Removes r'.mailboxId r'.uid) stmts ∧
          ¬ Sends (Stmt.Marks r'.mailboxId r'.uid) stmts := by
      intro r' hr' hid
      obtain ⟨r, hfrom, hsame, -⟩ := mem_onMemberships hr'
      have hid' : r.messageId = id := hsame.message ▸ hid
      rw [hsame.mailbox, hsame.uid]
      rcases hfrom with ⟨hr, -⟩ | hins
      · exact ⟨(hkeep r hr hid').1.2, (hkeep r hr hid').2.2⟩
      · exact absurd hins (hnew r hid').1
    rw [across_cons, ih hlater fun r hid => (hnew r hid).2]
    cases s with
    | insertMemberships rows =>
      have hnone : (rows.filter fun r => decide (r.messageId = id)) = [] := by
        rw [List.filter_eq_nil_iff]
        intro r hr hid
        exact (hnew r (by simpa using hid)).1 hr
      rw [Stmt.onMemberships, List.filter_append, hnone, List.append_nil]
    | setDeleted deleted mailboxId uids =>
      apply Table.filter_map_fixed
      intro r hr
      constructor
      · split <;> rfl
      · intro hid
        have hmark := (hkeep r hr (by simpa using hid)).2.1
        rw [if_neg]
        simpa [Stmt.Marks] using hmark
    | deleteMemberships mailboxId uids =>
      rw [Stmt.onMemberships, List.filter_filter]
      apply List.filter_congr
      intro r hr
      by_cases hid : r.messageId = id
      · have hgone := (hkeep r hr hid).1.1
        simpa [hid, Stmt.Removes, imp_iff_not_or] using hgone
      · simp [hid]
    | deleteMailboxMemberships mailboxId =>
      rw [Stmt.onMemberships, List.filter_filter]
      apply List.filter_congr
      intro r hr
      by_cases hid : r.messageId = id
      · have hgone := (hkeep r hr hid).1.1
        simpa [hid, Stmt.Removes] using hgone
      · simp [hid]
    | _ => rfl

theorem mem_onExpunged {t : List Expunged} :
    x ∈ s.onExpunged t ↔ x ∈ t ∧ ¬ s.Clears x.mailboxId ∨ s.Buries x := by
  cases s <;> simp [Stmt.onExpunged, Stmt.Clears, Stmt.Buries]

theorem expunged_from {t : List Expunged}
    (h : x ∈ across Stmt.onExpunged stmts t) :
    x ∈ t ∧ ¬ Sends (Stmt.Clears x.mailboxId) stmts ∨ Sends (Stmt.Buries x) stmts := by
  induction stmts generalizing t with
  | nil => exact .inl ⟨h, by simp⟩
  | cons s stmts ih =>
    simp only [sends_cons, not_or]
    rcases ih h with ⟨hx, hkeep⟩ | hin
    · rcases mem_onExpunged.mp hx with ⟨hx, hkeep'⟩ | hin
      · exact .inl ⟨hx, hkeep', hkeep⟩
      · exact .inr (.inl hin)
    · exact .inr (.inr hin)

theorem expunged_stay {t : List Expunged}
    (hx : x ∈ t ∨ Sends (Stmt.Buries x) stmts) (hkeep : ¬ Sends (Stmt.Clears x.mailboxId) stmts) :
    x ∈ across Stmt.onExpunged stmts t := by
  induction stmts generalizing t with
  | nil => simpa using hx
  | cons s stmts ih =>
    rw [sends_cons, not_or] at hkeep
    rw [sends_cons] at hx
    refine ih ?_ hkeep.2
    rw [mem_onExpunged]
    rcases hx with hx | hnow | hlater
    · exact .inl (.inl ⟨hx, hkeep.1⟩)
    · exact .inl (.inr hnow)
    · exact .inr hlater

/-- The same mailbox, with other counters. -/
structure SameMailbox (b b' : MailboxRow) : Prop where
  id : b'.id = b.id
  uidvalidity : b'.uidvalidity = b.uidvalidity
  floor : b'.expungedFloor = b.expungedFloor

theorem SameMailbox.refl (b : MailboxRow) : SameMailbox b b := ⟨rfl, rfl, rfl⟩

theorem SameMailbox.trans {b b' b'' : MailboxRow} (h : SameMailbox b b') (h' : SameMailbox b' b'') :
    SameMailbox b b'' :=
  ⟨h'.id.trans h.id, h'.uidvalidity.trans h.uidvalidity, h'.floor.trans h.floor⟩

theorem mem_onMailboxes {t : List MailboxRow} {b' : MailboxRow}
    (h : b' ∈ s.onMailboxes t) :
    ∃ b, (b ∈ t ∧ (s.Closes b.id → b.status ≠ .deleted) ∨ s.Opens b) ∧ SameMailbox b b' ∧
      (b'.uidnext = b.uidnext ∧ (∀ n, ¬ s.Advances b.id n) ∨ s.Advances b.id b'.uidnext) ∧
      (¬ s.Sets b.id → b'.status = b.status) := by
  cases s with
  | insertMailbox row =>
    simp only [Stmt.onMailboxes, List.mem_append, List.mem_singleton] at h
    refine ⟨b', ?_, .refl b', .inl ⟨rfl, fun _ => id⟩, fun _ => rfl⟩
    rcases h with h | rfl
    · exact .inl ⟨h, False.elim⟩
    · exact .inr rfl
  | deleteMailbox id =>
    simp only [Stmt.onMailboxes, List.mem_filter] at h
    refine ⟨b', .inl ⟨h.1, fun hid => ?_⟩, .refl b', .inl ⟨rfl, fun _ h => h⟩, fun _ => rfl⟩
    have hp := h.2
    simp only [Stmt.Closes] at hid
    simpa [hid] using hp
  | updateMailbox id set =>
    simp only [Stmt.onMailboxes, Stmt.onMailbox, List.mem_map] at h
    obtain ⟨b, hb, rfl⟩ := h
    refine ⟨b, .inl ⟨hb, False.elim⟩, ?_⟩
    by_cases hid : b.id = id
    · simp only [if_pos hid]
      refine ⟨⟨rfl, rfl, rfl⟩, ?_, fun hsets => absurd hid hsets⟩
      cases hnext : set.uidnext with
      | none =>
        refine .inl ⟨?_, fun n h => ?_⟩
        · change set.uidnext.getD b.uidnext = b.uidnext
          rw [hnext, Option.getD_none]
        · cases hnext.symm.trans h.2
      | some n =>
        refine .inr ⟨hid, ?_⟩
        change set.uidnext = some (set.uidnext.getD b.uidnext)
        rw [hnext, Option.getD_some]
    · rw [if_neg hid]
      exact ⟨.refl b, .inl ⟨rfl, fun n h => hid h.1⟩, fun _ => rfl⟩
  | _ =>
    change b' ∈ t.map (fun b => b) at h
    rw [List.map_id'] at h
    exact ⟨b', .inl ⟨h, False.elim⟩, .refl b', .inl ⟨rfl, fun _ h => h⟩, fun _ => rfl⟩

theorem mailboxes_from {t : List MailboxRow} {b' : MailboxRow}
    (h : b' ∈ across Stmt.onMailboxes stmts t) :
    ∃ b, SameMailbox b b' ∧
      (b ∈ t ∧ (∀ n, Sends (Stmt.Advances b.id n) stmts → Sends (Stmt.Advances b.id b'.uidnext) stmts) ∧
          (Sends (Stmt.Closes b.id) stmts → ¬ Sends (Stmt.Sets b.id) stmts → b.status ≠ .deleted) ∨
        Sends (Stmt.Opens b) stmts) ∧
      (b'.uidnext = b.uidnext ∨ Sends (Stmt.Advances b.id b'.uidnext) stmts) := by
  induction stmts generalizing t with
  | nil => exact ⟨b', .refl b', .inl ⟨h, by simp, by simp⟩, .inl rfl⟩
  | cons s stmts ih =>
    obtain ⟨b₁, hsame, hfrom, hnext⟩ := ih h
    simp only [sends_cons, not_or]
    rcases hfrom with ⟨hb₁, hlast, hopen⟩ | hin
    · obtain ⟨b, hfrom', hsame', hnext', hstatus⟩ := mem_onMailboxes hb₁
      rw [hsame'.id] at hlast hopen hnext
      refine ⟨b, hsame'.trans hsame, ?_, ?_⟩
      · rcases hfrom' with ⟨hb, hclose⟩ | hin
        · refine .inl ⟨hb, fun n hn => ?_, fun hclosed hsets => ?_⟩
          · rcases hn with hn | hn
            · rcases hnext' with ⟨-, hnone⟩ | hset
              · exact absurd hn (hnone n)
              · rcases hnext with heq | hlater
                · exact .inl (heq ▸ hset)
                · exact .inr hlater
            · exact .inr (hlast n hn)
          · rcases hclosed with hclosed | hclosed
            · exact hclose hclosed
            · exact hstatus hsets.1 ▸ hopen hclosed hsets.2
        · exact .inr (.inl hin)
      · rcases hnext with heq | hlater
        · rcases hnext' with ⟨heq', -⟩ | hset
          · exact .inl (heq.trans heq')
          · exact .inr (.inl (heq ▸ hset))
        · exact .inr (.inr hlater)
    · exact ⟨b₁, hsame, .inr (.inr hin), hnext.imp_right .inr⟩

theorem mailboxes_stay {t : List MailboxRow} {b : MailboxRow} (hb : b ∈ t)
    (hkeep : ¬ Sends (Stmt.Closes b.id) stmts) :
    ∃ b' ∈ across Stmt.onMailboxes stmts t, SameMailbox b b' := by
  induction stmts generalizing t b with
  | nil => exact ⟨b, hb, .refl b⟩
  | cons s stmts ih =>
    rw [sends_cons, not_or] at hkeep
    have hone : ∃ b' ∈ s.onMailboxes t, SameMailbox b b' := by
      cases s with
      | insertMailbox row => exact ⟨b, List.mem_append_left _ hb, .refl b⟩
      | deleteMailbox id =>
        have hid : b.id ≠ id := hkeep.1
        exact ⟨b, List.mem_filter.mpr ⟨hb, by simp [hid]⟩, .refl b⟩
      | updateMailbox id set =>
        refine ⟨_, List.mem_map_of_mem hb, ?_⟩
        simp only [Stmt.onMailbox]
        split <;> exact ⟨rfl, rfl, rfl⟩
      | _ => exact ⟨_, List.mem_map_of_mem hb, ⟨rfl, rfl, rfl⟩⟩
    obtain ⟨b₁, hb₁, hsame⟩ := hone
    obtain ⟨b', hb', hsame'⟩ := ih hb₁ (by rw [hsame.id]; exact hkeep.2)
    exact ⟨b', hb', hsame.trans hsame'⟩

theorem messages_from {db db' : Db}
    (hstamps : ∀ s ∈ stmts, s.Stamped next now) (h : batch stmts db = some db') {m : MessageRow}
    (hm : m ∈ db'.messages) :
    m ∈ db.messages ∧ ¬ Sends (Stmt.Renews m.id) stmts ∨
      m.modseq = next ∧ Sends (Stmt.Renews m.id) stmts := by
  induction stmts generalizing db with
  | nil =>
    cases h
    exact .inl ⟨hm, by simp⟩
  | cons s stmts ih =>
    simp only [batch, Option.bind_eq_some_iff, Stmt.exec] at h
    obtain ⟨db₁, hs, hrest⟩ := h
    split at hs
    · rename_i hkeyed
      cases hs
      rw [List.forall_mem_cons] at hstamps
      rcases ih hstamps.2 hrest with ⟨hm₁, hnew⟩ | ⟨hnext, hnew⟩
      · rw [sends_cons, not_or]
        have hstamp := hstamps.1
        have hids := hkeyed.message
        change m ∈ s.onMessages db.messages at hm₁
        change ((s.onMessages db.messages).map (·.id)).Nodup at hids
        cases s with
        | insertMessages rows =>
          simp only [Stmt.onMessages, List.mem_append] at hm₁
          simp only [Stmt.onMessages, List.map_append, List.nodup_append] at hids
          rcases hm₁ with hm₁ | hm₁
          · refine .inl ⟨hm₁, fun hsame => ?_, hnew⟩
            obtain ⟨m', hm', hid⟩ := hsame
            exact hids.2.2 m.id (List.mem_map_of_mem hm₁) m'.id (List.mem_map_of_mem hm') hid.symm
          · exact .inr ⟨hstamp m hm₁, .inl ⟨m, hm₁, rfl⟩⟩
        | setModseq modseq ids =>
          simp only [Stmt.onMessages, List.mem_map] at hm₁
          obtain ⟨m₀, hm₀, rfl⟩ := hm₁
          by_cases hid : ids.contains m₀.id = true
          · rw [if_pos hid]
            have hin : m₀.id ∈ ids := by simpa using hid
            exact .inr ⟨hstamp, .inl hin⟩
          · rw [if_neg hid] at hnew ⊢
            have hout : m₀.id ∉ ids := by simpa using hid
            exact .inl ⟨hm₀, hout, hnew⟩
        | deleteMessages ids =>
          simp only [Stmt.onMessages, List.mem_filter] at hm₁
          refine .inl ⟨hm₁.1, fun hin => ?_, hnew⟩
          have hin' : m.id ∈ ids := hin
          simpa [hin'] using hm₁.2
        | _ => exact .inl ⟨hm₁, id, hnew⟩
      · exact .inr ⟨hnext, (sends_cons s stmts).mpr (.inr hnew)⟩
    · cases hs

theorem messages_stay {t : List MessageRow}
    (hin : (∃ m ∈ t, m.id = id) ∨ ∃ m, Sends (Stmt.Adds m) stmts ∧ m.id = id)
    (hkeep : ¬ Sends (Stmt.Destroys id) stmts) : ∃ m ∈ across Stmt.onMessages stmts t, m.id = id := by
  induction stmts generalizing t with
  | nil => simpa using hin
  | cons s stmts ih =>
    rw [sends_cons, not_or] at hkeep
    refine ih ?_ hkeep.2
    rcases hin with ⟨m, hm, rfl⟩ | ⟨m, hadd, rfl⟩
    · left
      cases s with
      | insertMessages rows => exact ⟨m, List.mem_append_left _ hm, rfl⟩
      | setModseq modseq ids =>
        refine ⟨_, List.mem_map_of_mem hm, ?_⟩
        split <;> rfl
      | deleteMessages ids =>
        have hid : m.id ∉ ids := hkeep.1
        exact ⟨m, List.mem_filter.mpr ⟨hm, by simpa using hid⟩, rfl⟩
      | _ => exact ⟨m, hm, rfl⟩
    · rcases (sends_cons s stmts).mp hadd with hadd | hadd
      · left
        cases s with
        | insertMessages rows => exact ⟨m, List.mem_append_right _ hadd, rfl⟩
        | _ => exact absurd hadd id
      · exact .inr ⟨m, hadd, rfl⟩

theorem messages_same (h : ¬ Sends (Stmt.Renews id) stmts)
    (t : List MessageRow) :
    ((across Stmt.onMessages stmts t).filter fun m => m.id = id) = t.filter fun m => m.id = id := by
  induction stmts generalizing t with
  | nil => rfl
  | cons s stmts ih =>
    rw [sends_cons, not_or] at h
    rw [across_cons, ih h.2]
    cases s with
    | insertMessages rows =>
      have hnone : (rows.filter fun m => decide (m.id = id)) = [] := by
        rw [List.filter_eq_nil_iff]
        intro m hm hid
        exact h.1 ⟨m, hm, by simpa using hid⟩
      rw [Stmt.onMessages, List.filter_append, hnone, List.append_nil]
    | setModseq modseq ids =>
      have hid : id ∉ ids := h.1
      apply Table.filter_map_fixed
      intro m _
      constructor
      · split <;> rfl
      · intro hm
        have hm : m.id = id := by simpa using hm
        rw [if_neg]
        simpa [hm] using hid
    | deleteMessages ids =>
      have hid : id ∉ ids := h.1
      rw [Stmt.onMessages, List.filter_filter]
      apply List.filter_congr
      intro m _
      by_cases hm : m.id = id
      · simp [hm, hid]
      · simp [hm]
    | _ => rfl

theorem keywords_stay (h : ¬ Sends (Stmt.Flags id) stmts)
    (t : List Keyword) :
    ((across Stmt.onKeywords stmts t).filter fun k => k.messageId = id) =
      t.filter fun k => k.messageId = id := by
  induction stmts generalizing t with
  | nil => rfl
  | cons s stmts ih =>
    rw [sends_cons, not_or] at h
    rw [across_cons, ih h.2]
    cases s with
    | insertKeywords rows =>
      have hnone : (rows.filter fun k => decide (k.messageId = id)) = [] := by
        rw [List.filter_eq_nil_iff]
        intro k hk hid
        exact h.1 ⟨k, hk, by simpa using hid⟩
      rw [Stmt.onKeywords, List.filter_append, hnone, List.append_nil]
    | deleteKeywords messageId keywords =>
      have hid : messageId ≠ id := h.1
      rw [Stmt.onKeywords, List.filter_filter]
      apply List.filter_congr
      intro k _
      by_cases hk : k.messageId = id
      · simp [hk, hid.symm]
      · simp [hk]
    | deleteMessageKeywords ids =>
      have hid : id ∉ ids := h.1
      rw [Stmt.onKeywords, List.filter_filter]
      apply List.filter_congr
      intro k _
      by_cases hk : k.messageId = id
      · simp [hk, hid]
      · simp [hk]
    | _ => rfl

theorem account_modseq (hstamps : ∀ s ∈ stmts, s.Stamped next now) (a : AccountRow) :
    (across Stmt.onAccount stmts a).modseq = a.modseq ∨
      (across Stmt.onAccount stmts a).modseq = next := by
  induction stmts generalizing a with
  | nil => exact .inl rfl
  | cons s stmts ih =>
    rw [List.forall_mem_cons] at hstamps
    rw [across_cons]
    rcases ih hstamps.2 (s.onAccount a) with h | h
    · cases s with
      | updateAccount set => exact .inr (h.trans hstamps.1)
      | _ => exact .inl h
    · exact .inr h

theorem account_counted (hstamps : ∀ s ∈ stmts, s.Stamped next now) (hcounts : Sends Stmt.Counts stmts)
    (a : AccountRow) : (across Stmt.onAccount stmts a).modseq = next := by
  induction stmts generalizing a with
  | nil => exact absurd hcounts sends_nil
  | cons s stmts ih =>
    have hfirst := hstamps s List.mem_cons_self
    have hrest := fun x hx => hstamps x (List.mem_cons_of_mem _ hx)
    rw [across_cons]
    by_cases hlater : Sends Stmt.Counts stmts
    · exact ih hrest hlater _
    · have hnow := ((sends_cons s stmts).mp hcounts).resolve_right hlater
      cases s with
      | updateAccount set =>
        rw [across_frame]
        · exact hfirst
        · intro x hx b
          cases x with
          | updateAccount set' => exact absurd ⟨_, hx, trivial⟩ hlater
          | _ => rfl
      | _ => exact absurd hnow id

theorem account_uidvalidity (stmts : List Stmt) (a : AccountRow) :
    (across Stmt.onAccount stmts a).uidvalidityLast = a.uidvalidityLast ∧
        (∀ v, ¬ Sends (Stmt.Ages v) stmts) ∨
      Sends (Stmt.Ages (across Stmt.onAccount stmts a).uidvalidityLast) stmts := by
  induction stmts generalizing a with
  | nil => exact .inl ⟨rfl, by simp⟩
  | cons s stmts ih =>
    simp only [across_cons, sends_cons, not_or]
    rcases ih (s.onAccount a) with ⟨heq, hnone⟩ | hlater
    · rw [heq]
      cases s with
      | updateAccount set =>
        cases hv : set.uidvalidityLast with
        | none =>
          refine .inl ⟨?_, fun v => ⟨fun h => ?_, hnone v⟩⟩
          · change set.uidvalidityLast.getD a.uidvalidityLast = _
            rw [hv, Option.getD_none]
          · cases hv.symm.trans h
        | some v =>
          refine .inr (.inl ?_)
          change set.uidvalidityLast = some (set.uidvalidityLast.getD a.uidvalidityLast)
          rw [hv, Option.getD_some]
      | _ => exact .inl ⟨rfl, fun v => ⟨id, hnone v⟩⟩
    · exact .inr (.inr hlater)

end Ionosphere.Store
