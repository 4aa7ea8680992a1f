import Ionosphere.Store.Committed

/-! Uids over whole runs: they stay below `uidnext`, which does not go back, and none is given
out twice. A mailbox is known by its uidvalidity, which no other mailbox ever gets. -/
namespace Ionosphere.Store

open Ionosphere.Js Ionosphere.Lib

/-- Every uid in use or with a tombstone is below the `uidnext` of its mailbox. -/
def BelowNext (db : Db) : Prop :=
  (∀ r ∈ db.memberships, ∃ b ∈ db.mailboxes, b.id = r.mailboxId ∧ r.uid < b.uidnext) ∧
    ∀ x ∈ db.expunged, ∃ b ∈ db.mailboxes, b.id = x.mailboxId ∧ x.uid < b.uidnext

/-- What is left of one state in a later one. -/
structure Continues (db db' : Db) : Prop where
  last : db.account.uidvalidityLast ≤ db'.account.uidvalidityLast
  mailbox : ∀ b' ∈ db'.mailboxes,
    (∃ b ∈ db.mailboxes, b'.id = b.id ∧ b'.uidvalidity = b.uidvalidity ∧ b.uidnext ≤ b'.uidnext) ∨
      db.account.uidvalidityLast < b'.uidvalidity
  membership : ∀ r' ∈ db'.memberships, ∀ b ∈ db.mailboxes, ∀ b' ∈ db'.mailboxes,
    b'.id = r'.mailboxId → b'.uidvalidity = b.uidvalidity →
    (∃ r ∈ db.memberships, SameRow r r') ∨ b.uidnext ≤ r'.uid

namespace Continues

variable {db db₁ db₂ db₃ : Db}

theorem refl (db : Db) : Continues db db where
  last := Nat.le_refl _
  mailbox b hb := .inl ⟨b, hb, rfl, rfl, Nat.le_refl _⟩
  membership r hr _ _ _ _ _ _ := .inl ⟨r, hr, .refl r⟩

theorem same (hdb : Sound db₁) (h : Continues db₁ db₂) {b b' : MailboxRow}
    (hb : b ∈ db₁.mailboxes) (hb' : b' ∈ db₂.mailboxes) (hsame : b'.uidvalidity = b.uidvalidity) :
    b'.id = b.id ∧ b.uidnext ≤ b'.uidnext := by
  rcases h.mailbox b' hb' with ⟨b₀, hb₀, hid, huv, hle⟩ | hlt
  · rw [hdb.distinct b hb b₀ hb₀ (hsame.symm.trans huv)]
    exact ⟨hid, hle⟩
  · have := hdb.uidvalidity b hb
    omega

theorem between (hdb : Sound db₁) (h : Continues db₁ db₂) (h' : Continues db₂ db₃)
    {b₁ b₃ : MailboxRow} (hb₁ : b₁ ∈ db₁.mailboxes) (hb₃ : b₃ ∈ db₃.mailboxes)
    (hsame : b₃.uidvalidity = b₁.uidvalidity) :
    ∃ b₂ ∈ db₂.mailboxes, b₂.uidvalidity = b₁.uidvalidity ∧ b₃.id = b₂.id ∧
      b₂.uidnext ≤ b₃.uidnext := by
  rcases h'.mailbox b₃ hb₃ with ⟨b₂, hb₂, hid, huv, hle⟩ | hlt
  · exact ⟨b₂, hb₂, huv.symm.trans hsame, hid, hle⟩
  · have := hdb.uidvalidity b₁ hb₁
    have := h.last
    omega

theorem trans (hdb : Sound db₁) (h : Continues db₁ db₂) (h' : Continues db₂ db₃) :
    Continues db₁ db₃ where
  last := h.last.trans h'.last
  mailbox b₃ hb₃ := by
    rcases h'.mailbox b₃ hb₃ with ⟨b₂, hb₂, hid, huv, hle⟩ | hlt
    · rcases h.mailbox b₂ hb₂ with ⟨b₁, hb₁, hid₁, huv₁, hle₁⟩ | hlt
      · exact .inl ⟨b₁, hb₁, hid.trans hid₁, huv.trans huv₁, hle₁.trans hle⟩
      · exact .inr (huv ▸ hlt)
    · exact .inr (h.last.trans_lt hlt)
  membership r₃ hr₃ b₁ hb₁ b₃ hb₃ hin hsame := by
    obtain ⟨b₂, hb₂, huv, hid, -⟩ := between hdb h h' hb₁ hb₃ hsame
    have hnext := (h.same hdb hb₁ hb₂ huv).2
    rcases h'.membership r₃ hr₃ b₂ hb₂ b₃ hb₃ hin (hsame.trans huv.symm) with ⟨r₂, hr₂, hrow⟩ | hle
    · rcases h.membership r₂ hr₂ b₁ hb₁ b₂ hb₂ (hid.symm.trans (hin.trans hrow.mailbox)) huv with
        ⟨r₁, hr₁, hrow₁⟩ | hle
      · exact .inl ⟨r₁, hr₁, hrow₁.trans hrow⟩
      · exact .inr (hrow.uid ▸ hle)
    · exact .inr (hnext.trans hle)

end Continues

section

variable {u : CaseMap} {db : Db}

theorem Commits.continues {op : Op} {env : Env} {db' : Db} (hdb : Sound db)
    (h : Commits u op env db db') : Continues db db' := by
  have hev := h.evolves hdb
  have hdb' := hdb.commits h
  refine ⟨hev.uidvalidityLast, fun b' hb' => ?_, fun r' hr' b hb b' hb' hin hsame => ?_⟩
  · rcases hev.mailbox b' hb' with ⟨b, hb, hsame, hle⟩ | ⟨-, -, -, hlt, -⟩
    · exact .inl ⟨b, hb, hsame.id, hsame.uidvalidity, hle⟩
    · exact .inr hlt
  · rcases hev.membership r' hr' with ⟨r, hr, hrow, -⟩ | ⟨⟨b₀, hb₀, b₀', hb₀', hid, hkin, hlow, -⟩, -⟩
    · exact .inl ⟨r, hr, hrow⟩
    · have hrow' : b₀' = b' := hdb'.mailbox_eq hb₀' hb' (hkin.id.trans (hid.trans hin.symm))
      have hrow : b₀ = b :=
        hdb.distinct b₀ hb₀ b hb (hkin.uidvalidity.symm.trans (hrow' ▸ hsame))
      exact .inr (hrow ▸ hlow)

theorem performAll_continues (hdb : Sound db) (calls : List Invocation) :
    Sound (performAll u calls db) ∧ Continues db (performAll u calls db) := by
  induction calls generalizing db with
  | nil => exact ⟨hdb, .refl db⟩
  | cons c calls ih =>
    have hone : Sound (perform u c db) ∧ Continues db (perform u c db) := by
      rcases perform_cases u c db with hsame | ⟨i, hcommit⟩
      · rw [hsame]
        exact ⟨hdb, .refl db⟩
      · exact ⟨hdb.commits hcommit, hcommit.continues hdb⟩
    obtain ⟨hsound, hlater⟩ := ih hone.1
    exact ⟨hsound, hone.2.trans hdb hlater⟩

/-- Three states of a run of an account, in order. A mailbox with one uidvalidity in the first
and the last is one mailbox that was there all the time; its `uidnext` did not go back; and a
uid it had in use in the first is the uid of the same membership later, without a gap, or of
none. -/
theorem uid_discipline (u : CaseMap) (accountId mailboxId : Id) (now quotaBytes : Nat)
    (calls₁ calls₂ calls₃ : List Invocation) :
    let db₁ := performAll u calls₁ (newAccount accountId mailboxId now quotaBytes)
    let db₂ := performAll u calls₂ db₁
    let db₃ := performAll u calls₃ db₂
    BelowNext db₁ ∧ ∀ b₁ ∈ db₁.mailboxes, ∀ b₃ ∈ db₃.mailboxes, b₃.uidvalidity = b₁.uidvalidity →
      b₃.id = b₁.id ∧ b₁.uidnext ≤ b₃.uidnext ∧
      (∃ b₂ ∈ db₂.mailboxes, b₂.id = b₁.id ∧ b₂.uidvalidity = b₁.uidvalidity) ∧
      ∀ r₃ ∈ db₃.memberships, r₃.mailboxId = b₃.id →
        (∀ r₁ ∈ db₁.memberships, r₁.mailboxId = b₁.id → r₁.uid = r₃.uid →
          ∃ r₂ ∈ db₂.memberships, SameRow r₁ r₂ ∧ SameRow r₂ r₃) ∧
        ∀ x ∈ db₁.expunged, x.mailboxId = b₁.id → x.uid ≠ r₃.uid := by
  intro db₁ db₂ db₃
  obtain ⟨hdb₁, -⟩ : Sound db₁ ∧ _ :=
    performAll_continues (sound_newAccount accountId mailboxId now quotaBytes) calls₁
  obtain ⟨hdb₂, h₁₂⟩ : Sound db₂ ∧ _ := performAll_continues hdb₁ calls₂
  obtain ⟨hdb₃, h₂₃⟩ : Sound db₃ ∧ _ := performAll_continues hdb₂ calls₃
  have h₁₃ := h₁₂.trans hdb₁ h₂₃
  refine ⟨⟨hdb₁.membership, hdb₁.expunged⟩, fun b₁ hb₁ b₃ hb₃ hsame => ?_⟩
  obtain ⟨hid, hnext⟩ := h₁₃.same hdb₁ hb₁ hb₃ hsame
  obtain ⟨b₂, hb₂, huv₂, hid₂, -⟩ := h₁₂.between hdb₁ h₂₃ hb₁ hb₃ hsame
  have hnext₂ := (h₁₂.same hdb₁ hb₁ hb₂ huv₂).2
  refine ⟨hid, hnext, ⟨b₂, hb₂, hid₂.symm.trans hid, huv₂⟩, fun r₃ hr₃ hin => ⟨?_, ?_⟩⟩
  · intro r₁ hr₁ hin₁ huid
    have hlt := hdb₁.below hr₁ hb₁ hin₁.symm
    -- Neither step can have given the uid out: it was below `uidnext` all the time.
    rcases h₂₃.membership r₃ hr₃ b₂ hb₂ b₃ hb₃ hin.symm (hsame.trans huv₂.symm) with
      ⟨r₂, hr₂, hrow⟩ | hle
    · rcases h₁₂.membership r₂ hr₂ b₁ hb₁ b₂ hb₂
        (hid₂.symm.trans (hin.symm.trans hrow.mailbox)) huv₂ with ⟨r, hr, hrow₁⟩ | hle
      · have hr₁₂ := hrow₁.trans hrow
        have heq : r = r₁ := hdb₁.membership_eq hr hr₁
          (hr₁₂.mailbox.symm.trans (hin.trans (hid.trans hin₁.symm))) (hr₁₂.uid.symm.trans huid.symm)
        exact ⟨r₂, hr₂, heq ▸ hrow₁, hrow⟩
      · have := hrow.uid
        omega
    · omega
  · intro x hx hin₁ huid
    obtain ⟨b₀, hb₀, hid₀, hlt⟩ := hdb₁.expunged x hx
    have heq : b₀ = b₁ := hdb₁.mailbox_eq hb₀ hb₁ (hid₀.trans hin₁)
    rcases h₁₃.membership r₃ hr₃ b₁ hb₁ b₃ hb₃ hin.symm hsame with ⟨r, hr, hrow⟩ | hle
    · exact hdb₁.apart x hx r hr (hrow.mailbox.symm.trans (hin.trans (hid.trans hin₁.symm)))
        (hrow.uid.symm.trans huid.symm)
    · rw [heq] at hlt
      omega

end

end Ionosphere.Store
