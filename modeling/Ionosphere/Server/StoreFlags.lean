import Ionosphere.Server.ConditionalStore
import Ionosphere.Store.Uids

/-! What a STORE leaves behind when nobody else is at work: the keywords of each selected
message, `\Deleted` of its membership, and all others as they were. -/
namespace Ionosphere.Server.StoreFlags

open Ionosphere.Js Ionosphere.Lib Ionosphere.Store ConditionalStore

variable {b : MailboxRow} {read : Rows} {deleted : Bool} {env : Env} {db' : Db} {stmts : List Stmt}
  {u : CaseMap} {req : StoreRequest}

def Drops (k : Keyword) : Stmt → Prop
  | .deleteKeywords messageId keywords => k.messageId = messageId ∧ k.keyword ∈ keywords
  | .deleteMessageKeywords ids => k.messageId ∈ ids
  | _ => False

def Puts (k : Keyword) : Stmt → Prop
  | .insertKeywords rows => k ∈ rows
  | _ => False

theorem mem_onKeywords (s : Stmt) (t : List Keyword) (k : Keyword) :
    k ∈ s.onKeywords t ↔ k ∈ t ∧ ¬ Drops k s ∨ Puts k s := by
  cases s with
  | insertKeywords rows => simp [Stmt.onKeywords, Drops, Puts]
  | deleteKeywords messageId keywords =>
    simp only [Stmt.onKeywords, Drops, Puts, List.mem_filter, or_false]
    by_cases hid : k.messageId = messageId <;> simp [hid]
  | deleteMessageKeywords ids => simp [Stmt.onKeywords, Drops, Puts]
  | _ => simp [Stmt.onKeywords, Drops, Puts]

theorem mem_dropped (hputs : ∀ s ∈ stmts, ∀ k, ¬ Puts k s) (t : List Keyword)
    (k : Keyword) : k ∈ across Stmt.onKeywords stmts t ↔ k ∈ t ∧ ¬ Sends (Drops k) stmts := by
  induction stmts generalizing t with
  | nil => simp [across]
  | cons s stmts ih =>
    have hnot := hputs s List.mem_cons_self k
    rw [across_cons, ih (fun s hs => hputs s (List.mem_cons_of_mem _ hs)), mem_onKeywords, sends_cons]
    tauto

theorem mem_put (hdrops : ∀ s ∈ stmts, ∀ k, ¬ Drops k s) (t : List Keyword)
    (k : Keyword) : k ∈ across Stmt.onKeywords stmts t ↔ k ∈ t ∨ Sends (Puts k) stmts := by
  induction stmts generalizing t with
  | nil => simp [across]
  | cons s stmts ih =>
    have hnot := hdrops s List.mem_cons_self k
    rw [across_cons, ih (fun s hs => hdrops s (List.mem_cons_of_mem _ hs)), mem_onKeywords, sends_cons]
    tauto

theorem mem_setKeywordsBatch (next now : Nat) (changes : List KeywordChange) (t : List Keyword)
    (k : Keyword) :
    k ∈ across Stmt.onKeywords (setKeywordsBatchStmts next now changes) t ↔
      (k ∈ t ∧ ¬ ∃ c ∈ changes, k.messageId = c.id ∧ k.keyword ∈ c.toRemove) ∨
        ∃ c ∈ changes, k.messageId = c.id ∧ k.keyword ∈ c.toAdd := by
  -- First statements that only drop keywords, then statements that only put some.
  let drops : List Stmt := [Stmt.claim next] ++ changes.flatMap (·.removeStmts)
  obtain ⟨puts, hsplit, hnone, hputs⟩ : ∃ puts, setKeywordsBatchStmts next now changes = drops ++ puts ∧
      (∀ s ∈ puts, ∀ k, ¬ Drops k s) ∧
      (Sends (Puts k) puts ↔ ∃ c ∈ changes, k.messageId = c.id ∧ k.keyword ∈ c.toAdd) := by
    refine ⟨_, by simp only [setKeywordsBatchStmts, drops, List.append_assoc]; rfl, ?_, ?_⟩
    · simp only [multiRow, bumpMessages, keywordStates, log, List.forall_mem_append,
        List.forall_mem_cons, List.forall_mem_map, List.forall_mem_flatMap]
      simp [Drops]
    · simp only [multiRow, bumpMessages, keywordStates, log, sends_append, sends_cons, sends_nil,
        sends_map, sends_flatMap, Puts, exists_chunk]
      simp only [List.mem_flatMap, KeywordChange.rows, List.mem_map, and_false, exists_false, or_false]
      constructor
      · rintro ⟨c, hc, x, hx, rfl⟩
        exact ⟨c, hc, rfl, hx⟩
      · rintro ⟨c, hc, hid, hx⟩
        exact ⟨c, hc, k.keyword, hx, by cases k; cases hid; rfl⟩
  have hdrops : ∀ s ∈ drops, ∀ k, ¬ Puts k s := by
    simp only [drops, KeywordChange.removeStmts, List.forall_mem_append, List.forall_mem_cons,
      List.forall_mem_map, List.forall_mem_flatMap]
    simp [Puts]
  have hdropped : Sends (Drops k) drops ↔ ∃ c ∈ changes, k.messageId = c.id ∧ k.keyword ∈ c.toRemove := by
    simp only [drops, KeywordChange.removeStmts, sends_append, sends_cons, sends_nil, sends_map,
      sends_flatMap, Drops, exists_chunk_and, false_or]
  rw [hsplit, across_append, mem_put hnone, mem_dropped hdrops, hputs, hdropped]

section

variable {db : Db}

theorem setKeywordsBatch_changes {ids : List Id} {add remove : List Text} {replace : Bool}
    {plan : Plan (List Id)}
    (h : (setKeywordsBatchAttempt u ids add remove replace env).on db = .ok plan) :
    ∃ changes : List KeywordChange,
      (∀ c, c ∈ changes ↔ ∃ id ∈ ids, (∃ m ∈ db.messages, m.id = id) ∧
        c = batchChange (lowerSet u add) (lowerSet u remove) replace db.keywords db.memberships id ∧
        ¬ (c.toAdd = [] ∧ c.toRemove = [])) ∧
      (changes = [] ∧ plan.stmts = [] ∨
        plan.stmts = setKeywordsBatchStmts (db.account.modseq + 1) env.now changes) := by
  rw [setKeywordsBatchAttempt, on_mustGetAccount] at h
  obtain ⟨-, h⟩ := h
  rw [on_chunks_bind] at h
  generalize htargets : (ids.eraseDups.filter fun id =>
    (readAll 1 ids.eraseDups (fun part db => db.messages.filter fun m => part.contains m.id)
      db).any fun m => m.id = id) = targets at h
  have hnodup : targets.Nodup := htargets ▸ (Table.nodup_eraseDups ids).filter _
  have hmem : ∀ id, id ∈ targets ↔ id ∈ ids ∧ ∃ m ∈ db.messages, m.id = id := by
    intro id
    rw [← htargets, List.mem_filter, List.mem_eraseDups, List.any_eq_true]
    refine and_congr_right fun hid => exists_congr fun m => ?_
    rw [mem_readAll_key 1 ids.eraseDups (·.messages) (·.id) db m]
    simp only [decide_eq_true_eq, List.mem_eraseDups]
    exact ⟨fun h => ⟨h.1.1, h.2⟩, fun h => ⟨⟨h.1, h.2 ▸ hid⟩, h.2⟩⟩
  have hchanges : ∀ c, c ∈ (targets.map fun id => batchChange (lowerSet u add) (lowerSet u remove) replace
      db.keywords db.memberships id).filter (fun c => !(c.toAdd.isEmpty && c.toRemove.isEmpty)) ↔
      ∃ id ∈ ids, (∃ m ∈ db.messages, m.id = id) ∧
        c = batchChange (lowerSet u add) (lowerSet u remove) replace db.keywords db.memberships id ∧
        ¬ (c.toAdd = [] ∧ c.toRemove = []) := by
    intro c
    simp only [List.mem_filter, List.mem_map, hmem, Bool.not_eq_true', Bool.and_eq_false_imp,
      List.isEmpty_iff, List.isEmpty_eq_false_iff, not_and]
    constructor
    · rintro ⟨⟨id, ⟨hid, hm⟩, rfl⟩, hsome⟩
      exact ⟨id, hid, hm, rfl, hsome⟩
    · rintro ⟨id, hid, hm, rfl, hsome⟩
      exact ⟨⟨id, ⟨hid, hm⟩, rfl⟩, hsome⟩
  refine ⟨_, hchanges, ?_⟩
  dsimp only at h
  split at h
  · rename_i hnone
    cases h
    refine .inl ⟨?_, rfl⟩
    rw [hnone]
    rfl
  · simp only [on_chunks_bind] at h
    have hread : targets.map (batchChange (lowerSet u add) (lowerSet u remove) replace
        (readAll 0 targets (fun part db => db.keywords.filter fun k => part.contains k.messageId) db)
        (readAll 0 targets (fun part db => db.memberships.filter fun r => part.contains r.messageId) db)) =
        targets.map fun id => batchChange (lowerSet u add) (lowerSet u remove) replace db.keywords
          db.memberships id :=
      List.map_congr_left fun id hid => batchChange_readAll hnodup _ _ _ hid
    rw [hread] at h
    split at h
    · rename_i hnone
      cases h
      exact .inl ⟨hnone, rfl⟩
    · cases h
      exact .inr rfl

theorem setDeleted_targets {mailboxId : Id} {uids : List Nat} {plan : Plan Unit}
    (h : (setDeletedAttempt mailboxId uids deleted env).on db = .ok plan) :
    ∃ targets : List Membership,
      (∀ r, r ∈ targets ↔
        r ∈ db.memberships ∧ r.mailboxId = mailboxId ∧ r.uid ∈ uids ∧ r.deleted ≠ deleted) ∧
      (targets = [] ∧ plan.stmts = [] ∨
        plan.stmts = setDeletedStmts (db.account.modseq + 1) env.now mailboxId deleted targets) := by
  rw [setDeletedAttempt, on_mustGetAccount] at h
  obtain ⟨-, h⟩ := h
  split at h
  · rename_i hnone
    cases h
    refine ⟨[], fun r => ?_, .inl ⟨rfl, rfl⟩⟩
    simp [hnone]
  · simp only [Reads.on_select_bind, Reads.on_check, on_chunks_bind] at h
    obtain ⟨-, h⟩ := h
    have hrows := fun r => mem_readAll_filter 1 uids (·.memberships)
      (fun r : Membership => decide (r.mailboxId = mailboxId)) (·.uid) db r
    split at h
    · rename_i hnone
      cases h
      refine ⟨[], fun r => ?_, .inl ⟨rfl, rfl⟩⟩
      rw [← hnone, List.mem_filter, hrows]
      simp [and_assoc]
    · cases h
      refine ⟨_, fun r => ?_, .inr rfl⟩
      rw [List.mem_filter, hrows]
      simp [and_assoc]

theorem keywords_commits {ids : List Id} {add remove : List Text} {replace : Bool}
    (h : Commits u (.setKeywordsBatch ids add remove replace) env db db') {id : Id} (hid : id ∈ ids)
    (hm : ∃ m ∈ db.messages, m.id = id) (k : Text) :
    let change := batchChange (lowerSet u add) (lowerSet u remove) replace db.keywords
      db.memberships id
    (⟨id, k⟩ : Keyword) ∈ db'.keywords ↔
      ((⟨id, k⟩ : Keyword) ∈ db.keywords ∧ k ∉ change.toRemove) ∨ k ∈ change.toAdd := by
  intro change
  obtain ⟨plan, hon, hbatch⟩ := h
  have hne : ids ≠ [] := List.ne_nil_of_mem hid
  rw [Op.attempt, if_neg hne] at hon
  obtain ⟨p, hp, rfl⟩ := on_stmts.mp hon
  obtain ⟨changes, hchanges, hstmts⟩ := setKeywordsBatch_changes hp
  have hkeywords : ∀ k : Keyword, k ∈ db'.keywords ↔
      (k ∈ db.keywords ∧ ¬ ∃ c ∈ changes, k.messageId = c.id ∧ k.keyword ∈ c.toRemove) ∨
        ∃ c ∈ changes, k.messageId = c.id ∧ k.keyword ∈ c.toAdd := by
    intro k
    rw [batch_keywords hbatch]
    rcases hstmts with ⟨rfl, hnil⟩ | hstmts
    · simp [hnil, across]
    · rw [hstmts]
      exact mem_setKeywordsBatch _ _ changes _ k
  -- The change of this message is the only one, and it is there unless it does nothing.
  have honly : ∀ c ∈ changes, id = c.id → c = change := by
    intro c hc hcid
    obtain ⟨id', -, -, rfl, -⟩ := (hchanges c).mp hc
    have hsame : id = id' := hcid
    exact congrArg _ hsame.symm
  have hthere : change ∉ changes → change.toAdd = [] ∧ change.toRemove = [] := by
    intro hnot
    by_contra hsome
    exact hnot ((hchanges change).mpr ⟨id, hid, hm, rfl, hsome⟩)
  rw [hkeywords]
  by_cases hin : change ∈ changes
  · have hback : ∀ f : KeywordChange → List Text,
        (∃ c ∈ changes, id = c.id ∧ k ∈ f c) → k ∈ f change := by
      rintro f ⟨c, hc, hcid, hk⟩
      exact honly c hc hcid ▸ hk
    have hremove : (∃ c ∈ changes, id = c.id ∧ k ∈ c.toRemove) ↔ k ∈ change.toRemove :=
      ⟨hback _, fun hk => ⟨change, hin, rfl, hk⟩⟩
    have hadd : (∃ c ∈ changes, id = c.id ∧ k ∈ c.toAdd) ↔ k ∈ change.toAdd :=
      ⟨hback _, fun hk => ⟨change, hin, rfl, hk⟩⟩
    rw [hremove, hadd]
  · obtain ⟨hadd, hremove⟩ := hthere hin
    have hnone : ∀ c ∈ changes, id ≠ c.id := fun c hc hcid => hin (honly c hc hcid ▸ hc)
    rw [hadd, hremove]
    constructor
    · rintro (⟨hk, -⟩ | ⟨c, hc, hcid, -⟩)
      · exact .inl ⟨hk, List.not_mem_nil⟩
      · exact absurd hcid (hnone c hc)
    · rintro (⟨hk, -⟩ | hk)
      · refine .inl ⟨hk, ?_⟩
        rintro ⟨c, hc, hcid, -⟩
        exact hnone c hc hcid
      · cases hk

/-- Statements about memberships that do no more than mark with `deleted`. -/
def MarksOnly (deleted : Bool) : Stmt → Prop
  | .setDeleted d _ _ => d = deleted
  | .insertMemberships _ | .deleteMemberships _ _ | .deleteMailboxMemberships _ => False
  | _ => True

theorem mem_marked (h : ∀ s ∈ stmts, MarksOnly deleted s)
    {t : List Membership} {r : Membership} (hr : r ∈ t) :
    ∃ r' ∈ across Stmt.onMemberships stmts t, SameRow r r' ∧
      (Sends (Stmt.Marks r.mailboxId r.uid) stmts → r'.deleted = deleted) ∧
      (¬ Sends (Stmt.Marks r.mailboxId r.uid) stmts → r' = r) := by
  induction stmts generalizing t r with
  | nil => exact ⟨r, hr, .refl r, by simp, fun _ => rfl⟩
  | cons s stmts ih =>
    have hs := h s List.mem_cons_self
    have hrest := fun s hs => h s (List.mem_cons_of_mem _ hs)
    have hkeep : s.Marks r.mailboxId r.uid ∧ ({ r with deleted := deleted } : Membership) ∈ s.onMemberships t ∨
        ¬ s.Marks r.mailboxId r.uid ∧ r ∈ s.onMemberships t := by
      cases s with
      | setDeleted d mailboxId uids =>
        obtain rfl : d = deleted := hs
        by_cases hmark : r.mailboxId = mailboxId ∧ r.uid ∈ uids
        · refine .inl ⟨hmark, List.mem_map.mpr ⟨r, hr, ?_⟩⟩
          rw [if_pos (by simpa using hmark)]
        · refine .inr ⟨hmark, List.mem_map.mpr ⟨r, hr, ?_⟩⟩
          rw [if_neg (by simpa using hmark)]
      | insertMemberships rows => exact absurd hs id
      | deleteMemberships mailboxId uids => exact absurd hs id
      | deleteMailboxMemberships mailboxId => exact absurd hs id
      | _ => exact .inr ⟨id, hr⟩
    simp only [sends_cons, across_cons]
    rcases hkeep with ⟨hmark, hin⟩ | ⟨hnot, hin⟩
    · obtain ⟨r', hr', hsame, hlater, hno⟩ := ih hrest hin
      refine ⟨r', hr', ⟨hsame.mailbox, hsame.uid, hsame.message⟩, fun _ => ?_, fun h => ?_⟩
      · by_cases hsent : Sends (Stmt.Marks r.mailboxId r.uid) stmts
        · exact hlater hsent
        · rw [hno hsent]
      · exact absurd (.inl hmark) h
    · obtain ⟨r', hr', hsame, hlater, hno⟩ := ih hrest hin
      refine ⟨r', hr', hsame, fun h => hlater (h.resolve_left hnot), fun h => hno fun hs => h (.inr hs)⟩

theorem deleted_commits {mailboxId : Id} {uids : List Nat}
    (h : Commits u (.setDeleted mailboxId uids deleted) env db db') :
    db'.keywords = db.keywords ∧ ∀ r ∈ db.memberships, r.mailboxId = mailboxId → r.uid ∈ uids →
      ∃ r' ∈ db'.memberships, SameRow r r' ∧ r'.deleted = deleted := by
  obtain ⟨plan, hon, hbatch⟩ := h
  obtain ⟨targets, htargets, hstmts⟩ := setDeleted_targets hon
  rcases hstmts with ⟨rfl, hnil⟩ | hstmts
  · rw [hnil] at hbatch
    cases hbatch
    refine ⟨rfl, fun r hr hb huid => ⟨r, hr, .refl r, ?_⟩⟩
    by_contra hmark
    exact List.not_mem_nil ((htargets r).mpr ⟨hr, hb, huid, hmark⟩)
  · have hkeywords : ∀ s ∈ plan.stmts, ∀ t, s.onKeywords t = t := by
      rw [hstmts]
      simp only [setDeletedStmts, bumpMessages, log, List.forall_mem_append, List.forall_mem_cons,
        List.forall_mem_map]
      simp [Stmt.onKeywords]
    have hmarks : ∀ s ∈ plan.stmts, MarksOnly deleted s := by
      rw [hstmts]
      simp only [setDeletedStmts, bumpMessages, log, List.forall_mem_append, List.forall_mem_cons,
        List.forall_mem_map]
      simp [MarksOnly]
    refine ⟨by rw [batch_keywords hbatch, across_frame _ hkeywords], fun r hr hb huid => ?_⟩
    rw [batch_memberships hbatch]
    obtain ⟨r', hr', hsame, hmarked, hother⟩ := mem_marked hmarks hr
    refine ⟨r', hr', hsame, ?_⟩
    by_cases hsent : Sends (Stmt.Marks r.mailboxId r.uid) plan.stmts
    · exact hmarked hsent
    · rw [hother hsent]
      by_contra hmark
      refine hsent ?_
      rw [hstmts]
      have hin := (htargets r).mpr ⟨hr, hb, huid, hmark⟩
      simp only [setDeletedStmts, sends_append, sends_map, Stmt.Marks, exists_chunk_and]
      exact .inl (.inl (.inl (.inr ⟨hb, List.mem_map_of_mem hin⟩)))

end

section

variable (u : CaseMap) (req : StoreRequest)

/-- The keywords that the flags stand for. -/
def wanted : List Text :=
  req.flags.filterMap fun flag =>
    let lower := toLowerCase u flag
    if lower = "\\deleted".toList then none
    else if lower = "\\recent".toList then none
    else some ((Assoc.get flagKeywords lower).getD lower)

def WantsKeyword (k : Text) (old : Prop) : Prop :=
  match req.mode with
  | .set => k ∈ lowerSet u (wanted u req)
  | .add => old ∨ k ∈ lowerSet u (wanted u req)
  | .remove => old ∧ k ∉ lowerSet u (wanted u req)

/-- `\Deleted` as it is to be. -/
def wantsMark (old : Bool) : Bool :=
  match req.mode with
  | .set => req.wantsDeleted u
  | .add => old || req.wantsDeleted u
  | .remove => old && !req.wantsDeleted u

def Target (b : MailboxRow) (db : Db) (r : Membership) : Prop :=
  r ∈ db.memberships ∧ r.mailboxId = b.id ∧ r.uid ∈ req.uids

end

/-- Each target that did not fail has the flags the operation makes of its old ones, and a
message that is no such target is as it was. -/
structure Stored (u : CaseMap) (req : StoreRequest) (b : MailboxRow) (db db' : Db)
    (failed : List Nat) : Prop where
  flags : ∀ r, Target req b db r → r.uid ∉ failed →
    (∃ r' ∈ db'.memberships, SameRow r r' ∧ r'.deleted = wantsMark u req r.deleted) ∧
      ∀ k, (⟨r.messageId, k⟩ : Keyword) ∈ db'.keywords ↔
        WantsKeyword u req k ((⟨r.messageId, k⟩ : Keyword) ∈ db.keywords)
  others : ∀ id, (∀ r, Target req b db r → r.uid ∉ failed → r.messageId ≠ id) →
    SameMessage db db' id

def AlreadyStored (u : CaseMap) (req : StoreRequest) (b : MailboxRow) (db : Db) : Prop :=
  ∀ p, JoinedRow db p → Target req b db p.1 → req.passes p = true → ∀ k,
    (⟨p.1.messageId, k⟩ : Keyword) ∈ db.keywords ↔
      WantsKeyword u req k ((⟨p.1.messageId, k⟩ : Keyword) ∈ db.keywords)

def NonePasses (req : StoreRequest) (b : MailboxRow) (db : Db) : Prop :=
  ∀ p, JoinedRow db p → Target req b db p.1 → req.passes p = false

/-- In the session's own mailbox every keyword is to be a text, if there is anything to do; in
another's there is to be no keyword to change. -/
def Storable (c : Setup) (b : MailboxRow) (db : Db) : Prop :=
  if c.own then c.req.plain c.u = true ∨ NonePasses c.req b db else AlreadyStored c.u c.req b db

theorem keywords_eq_wanted (hplain : req.plain u = true) :
    req.keywords u = wanted u req := by
  rw [StoreRequest.plain, List.all_eq_true] at hplain
  rw [StoreRequest.keywords, wanted, StoreRequest.kwFlags, List.filterMap_filterMap]
  refine List.filterMap_congr fun flag hflag => ?_
  cases hk : flagToKeyword u flag with
  | none =>
    rw [flagToKeyword] at hk
    split_ifs at hk with hdeleted hrecent
    · simp [hdeleted]
    · simp [hrecent]
  | some k =>
    have htext := hplain k (List.mem_filterMap.mpr ⟨flag, hflag, hk⟩)
    rw [flagToKeyword] at hk
    split_ifs at hk with hdeleted hrecent
    obtain rfl := Option.some.inj hk
    simp only [if_neg hdeleted, if_neg hrecent, Option.bind_some]
    rw [property] at htext ⊢
    cases hget : Assoc.get flagKeywords (toLowerCase u flag) with
    | some t => rfl
    | none =>
      rw [hget] at htext
      dsimp only at htext ⊢
      split_ifs at htext ⊢
      · cases htext
      · rfl

theorem wantsKeyword_iff (u : CaseMap) (req : StoreRequest) (hplain : req.plain u = true)
    (keywords : List Keyword) (memberships : List Membership) (id : Id) (k : Text) :
    let change := batchChange (lowerSet u (if req.mode = .remove then [] else req.keywords u))
      (lowerSet u (if req.mode = .remove then req.keywords u else [])) (req.mode = .set) keywords
      memberships id
    (((⟨id, k⟩ : Keyword) ∈ keywords ∧ k ∉ change.toRemove) ∨ k ∈ change.toAdd) ↔
      WantsKeyword u req k ((⟨id, k⟩ : Keyword) ∈ keywords) := by
  intro change
  have hcurrent : k ∈ (keywords.filter fun x => x.messageId = id).map (·.keyword) ↔
      (⟨id, k⟩ : Keyword) ∈ keywords := by
    simp only [List.mem_map, List.mem_filter, decide_eq_true_eq]
    constructor
    · rintro ⟨x, ⟨hx, rfl⟩, rfl⟩
      exact hx
    · exact fun hk => ⟨_, ⟨hk, rfl⟩, rfl⟩
  have hnone : lowerSet u [] = [] := rfl
  simp only [change, batchChange, WantsKeyword, keywords_eq_wanted hplain]
  cases hmode : req.mode <;>
    simp only [reduceCtorEq, decide_true, decide_false, if_true, if_false, hnone,
      List.mem_filter, List.contains_iff_mem, hcurrent, Bool.not_eq_true', Bool.and_eq_true,
      Bool.true_or, Bool.false_or, Bool.and_true, ← Bool.not_eq_true,
      List.not_mem_nil, not_false_iff, and_true, false_and] <;>
    tauto

section

variable {c : Setup} {db : Db}

/-- The rows that were read are those of the targets. -/
structure Selected (c : Setup) (b : MailboxRow) (db : Db) (read : Rows) : Prop where
  found : c.look.find db = some b
  joined : ∀ p ∈ read, JoinedRow db p ∧ Target c.req b db p.1
  all : ∀ r, Target c.req b db r → ∃ p ∈ read, p.1 = r

def KeywordAfter (c : Setup) (k : Text) (old : Prop) : Prop :=
  if c.own then WantsKeyword c.u c.req k old else old

/-- After the keyword batch, if there was one. -/
structure KeywordsLeft (c : Setup) (db db' : Db) (read : Rows) : Prop where
  memberships : db'.memberships = db.memberships
  keywords : ∀ p ∈ c.req.rows read, ∀ k, (⟨p.1.messageId, k⟩ : Keyword) ∈ db'.keywords ↔
    KeywordAfter c k ((⟨p.1.messageId, k⟩ : Keyword) ∈ db.keywords)
  others : ∀ id, (∀ p ∈ c.req.rows read, p.1.messageId ≠ id) → SameMessage db db' id

/-- After both batches. -/
structure Left (c : Setup) (db db' : Db) (read : Rows) : Prop where
  marks : ∀ p ∈ c.req.rows read,
    ∃ r' ∈ db'.memberships, SameRow p.1 r' ∧ r'.deleted = wantsMark c.u c.req p.1.deleted
  keywords : ∀ p ∈ c.req.rows read, ∀ k, (⟨p.1.messageId, k⟩ : Keyword) ∈ db'.keywords ↔
    KeywordAfter c k ((⟨p.1.messageId, k⟩ : Keyword) ∈ db.keywords)
  others : ∀ id, (∀ p ∈ c.req.rows read, p.1.messageId ≠ id) → SameMessage db db' id

/-- What a STORE that began at `db` has done so far. -/
def Alone (c : Setup) (db : Db) (w : ConditionalStore.World) : Prop :=
  match w.phase with
  | .start => w.db = db
  | .reading b parts read => w.db = db ∧ c.look.find db = some b ∧
      (∀ p ∈ read, JoinedRow db p ∧ Target c.req b db p.1) ∧
      ((∀ uid ∈ parts.flatten, uid ∈ c.req.uids) ∧
        ∀ r, Target c.req b db r → (∃ p ∈ read, p.1 = r) ∨ r.uid ∈ parts.flatten)
  | .keywords b read => w.db = db ∧ Selected c b db read ∧ c.req.rows read ≠ []
  | .deleted b read => Sound w.db ∧ Selected c b db read ∧ KeywordsLeft c db w.db read ∧
      (c.own = true → c.req.plain c.u = true)
  | .fetching _ failed | .replied (.flagsUpdated _ failed) =>
    ∃ b read, Selected c b db read ∧ Left c db w.db read ∧ failed = c.req.failed read ∧
      (c.own = true → c.req.plain c.u = true ∨ NonePasses c.req b db)
  | .typeError => ∃ b read, Selected c b db read ∧ c.own = true ∧ c.req.plain c.u = false ∧
      c.req.rows read ≠ []
  | .replied .no | .threw _ => True

theorem sameMessage_trans {db db' db'' : Db} {id : Id} (h : SameMessage db db' id)
    (h' : SameMessage db' db'' id) : SameMessage db db'' id :=
  ⟨h'.row.trans h.row, h'.keywords.trans h.keywords, h'.memberships.trans h.memberships⟩

theorem Selected.mem (hdb : Sound db) (h : Selected c b db read)
    {p : Membership × MessageRow} (hjoined : JoinedRow db p) (htarget : Target c.req b db p.1) :
    p ∈ read := by
  obtain ⟨q, hq, hqp⟩ := h.all p.1 htarget
  have hqj := (h.joined q hq).1
  have hsecond : q.2 = p.2 := by
    apply List.inj_on_of_nodup_map hdb.keyed.message hqj.message hjoined.message
    rw [hqj.same, hjoined.same, hqp]
  rwa [← Prod.ext hqp hsecond]

theorem Selected.nonePasses (hdb : Sound db) (h : Selected c b db read) :
    NonePasses c.req b db ↔ c.req.rows read = [] := by
  rw [List.eq_nil_iff_forall_not_mem]
  constructor
  · intro hnone p hp
    obtain ⟨hread, hpass⟩ := mem_rows.mp hp
    obtain ⟨hjoined, htarget⟩ := h.joined p hread
    rw [hnone p hjoined htarget] at hpass
    cases hpass
  · intro hnil p hjoined htarget
    by_contra hpass
    exact hnil p (mem_rows.mpr ⟨h.mem hdb hjoined htarget, by simpa using hpass⟩)

theorem keywordsLeft_commits (hown : c.own = true) (hplain : c.req.plain c.u = true)
    (hsel : Selected c b db read)
    (h : Commits c.u (c.req.keywordsOp c.u read) env db db') : KeywordsLeft c db db' read := by
  obtain ⟨hmemberships, hothers⟩ := keywords_commit h
  refine ⟨hmemberships, fun p hp k => ?_, fun id hnot => hothers id fun hid => ?_⟩
  · have hjoined := (hsel.joined p (mem_rows.mp hp).1).1
    have hid : p.1.messageId ∈ c.req.messageIds read := by
      rw [StoreRequest.messageIds, List.mem_eraseDups]
      exact List.mem_map_of_mem hp
    rw [KeywordAfter, if_pos hown]
    exact (keywords_commits h hid ⟨p.2, hjoined.message, hjoined.same⟩ k).trans
      (wantsKeyword_iff c.u c.req hplain db.keywords db.memberships p.1.messageId k)
  · obtain ⟨p, hp, hpid⟩ := mem_keywordsIds hid
    exact absurd hpid (hnot p hp)

/-- A batch that is accepted has found its account and the messages that were read. -/
theorem keywordsBatch_found (hsel : Selected c b db read)
    (hsome : c.req.rows read ≠ [])
    (h : Commits c.u (c.req.keywordsOp c.u read) env db db') :
    db.account.active = true ∧ ∃ m ∈ db.messages, m.id ∈ c.req.messageIds read := by
  obtain ⟨p, hp⟩ := List.exists_mem_of_ne_nil _ hsome
  have hid : p.1.messageId ∈ c.req.messageIds read := by
    rw [StoreRequest.messageIds, List.mem_eraseDups]
    exact List.mem_map_of_mem hp
  have hjoined := (hsel.joined p (mem_rows.mp hp).1).1
  obtain ⟨plan, hon, -⟩ := h
  rw [StoreRequest.keywordsOp, Op.attempt, if_neg (List.ne_nil_of_mem hid)] at hon
  obtain ⟨plan', hon, -⟩ := on_stmts.mp hon
  rw [setKeywordsBatchAttempt, on_mustGetAccount] at hon
  exact ⟨hon.1, p.2, hjoined.message, hjoined.same ▸ hid⟩

theorem wantsMark_untouched (h : req.deletedTo u = none)
    (old : Bool) : wantsMark u req old = old := by
  rw [StoreRequest.deletedTo] at h
  rw [wantsMark]
  cases hmode : req.mode <;> rw [hmode] at h <;> cases hwants : req.wantsDeleted u <;>
    simp [hwants] at h ⊢

theorem wantsMark_touched (h : req.deletedTo u = some deleted) (old : Bool) :
    wantsMark u req old = deleted := by
  rw [StoreRequest.deletedTo] at h
  rw [wantsMark]
  cases hmode : req.mode <;> rw [hmode] at h <;> cases hwants : req.wantsDeleted u <;>
    simp [hwants] at h ⊢ <;> simp [← h]

theorem KeywordsLeft.untouched (hsel : Selected c b db read)
    (h : KeywordsLeft c db db' read) (hd : c.req.deletedTo c.u = none) : Left c db db' read where
  marks p hp := by
    have hmem := (hsel.joined p (mem_rows.mp hp).1).1.membership
    exact ⟨p.1, h.memberships ▸ hmem, .refl p.1, (wantsMark_untouched hd _).symm⟩
  keywords := h.keywords
  others := h.others

theorem left_commits {db' db'' : Db} (hdb : Sound db')
    (hsel : Selected c b db read) (h : KeywordsLeft c db db' read)
    (hd : c.req.deletedTo c.u = some deleted)
    (hcommit : Commits c.u (c.req.deletedOp b read deleted) env db' db'') : Left c db db'' read := by
  obtain ⟨hkeywords, hmarks⟩ := deleted_commits hcommit
  refine ⟨fun p hp => ?_, fun p hp k => ?_, fun id hnot => ?_⟩
  · obtain ⟨hjoined, -, hb, -⟩ := hsel.joined p (mem_rows.mp hp).1
    have hmem : p.1 ∈ db'.memberships := h.memberships ▸ hjoined.membership
    obtain ⟨r', hr', hsame, hmark⟩ := hmarks p.1 hmem hb (List.mem_map_of_mem hp)
    exact ⟨r', hr', hsame, hmark.trans (wantsMark_touched hd _).symm⟩
  · rw [hkeywords]
    exact h.keywords p hp k
  · refine sameMessage_trans (h.others id hnot) (deleted_commit hcommit hdb.keyed fun r hr hb huid _ => ?_)
    obtain ⟨p, hp, hpuid⟩ := List.mem_map.mp huid
    obtain ⟨hjoined, -, hpb, -⟩ := hsel.joined p (mem_rows.mp hp).1
    have hmem : p.1 ∈ db'.memberships := h.memberships ▸ hjoined.membership
    rw [hdb.membership_eq hr hmem (hb.trans hpb.symm) hpuid.symm]
    exact hnot p hp

theorem alone_step {w w' : ConditionalStore.World} (hdb : Sound db) (h : Alone c db w)
    (hstep : c.advance env w = some w') : Alone c db w' := by
  obtain ⟨dbw, phase⟩ := w
  cases phase with
  | start =>
    obtain rfl : dbw = db := h
    simp only [Setup.advance] at hstep
    split at hstep
    · cases hstep
      trivial
    · rename_i b hfind
      cases hstep
      refine ⟨rfl, hfind, by simp, fun uid huid => ?_, fun r hr => .inr ?_⟩
      · rwa [Table.flatten_chunk] at huid
      · rw [Table.flatten_chunk]
        exact hr.2.2
  | reading b parts read =>
    obtain ⟨hsame, hfind, hread, huids, hall⟩ := h
    obtain rfl : dbw = db := hsame
    cases parts with
    | nil =>
      have hsel : Selected c b dbw read :=
        ⟨hfind, hread, fun r hr => (hall r hr).resolve_right List.not_mem_nil⟩
      simp only [Setup.advance] at hstep
      split at hstep
      · rename_i hnone
        cases hstep
        refine ⟨b, read, hsel, ⟨?_, ?_, fun id _ => .refl dbw id⟩, rfl,
          fun _ => .inr ((hsel.nonePasses hdb).mpr hnone)⟩
        · simp [hnone]
        · simp [hnone]
      · rename_i hsome
        cases hstep
        exact ⟨rfl, hsel, hsome⟩
    | cons part parts =>
      cases hstep
      refine ⟨rfl, hfind, fun p hp => ?_, fun uid huid => ?_, fun r hr => ?_⟩
      · rcases List.mem_append.mp hp with hp | hp
        · exact hread p hp
        · obtain ⟨hjoined, hq⟩ := mem_joinMessages hp
          have hq : p.1.mailboxId = b.id ∧ p.1.uid ∈ part := by simpa using hq
          have hin := huids p.1.uid (List.mem_append_left _ hq.2)
          exact ⟨hjoined, hjoined.membership, hq.1, hin⟩
      · exact huids uid (List.mem_append_right _ huid)
      · rcases hall r hr with ⟨p, hp, hpr⟩ | hin
        · exact .inl ⟨p, List.mem_append_left _ hp, hpr⟩
        · rcases List.mem_append.mp hin with hin | hin
          · obtain ⟨m, hm⟩ : ∃ m, messageOf dbw r.messageId = some m := by
              obtain ⟨m, hmem, hid⟩ := hdb.attached r hr.1
              apply Option.isSome_iff_exists.mp
              rw [messageOf, List.find?_isSome]
              exact ⟨m, hmem, by simpa using hid⟩
            refine .inl ⟨(r, m), List.mem_append_right _ ?_, rfl⟩
            rw [joinMessages, List.mem_filterMap]
            refine ⟨r, List.mem_filter.mpr ⟨hr.1, ?_⟩, by rw [hm]; rfl⟩
            simp [hr.2.1, hin]
          · exact .inr hin
  | keywords b read =>
    obtain ⟨hsame, hsel, hsome⟩ := h
    obtain rfl : dbw = db := hsame
    simp only [Setup.advance] at hstep
    split_ifs at hstep with hother hthrows
    · have hown : ¬ c.own = true := by simpa using hother
      cases hstep
      refine ⟨hdb, hsel, ⟨rfl, fun p _ k => ?_, fun id _ => .refl dbw id⟩, fun h => absurd h hown⟩
      rw [KeywordAfter, if_neg hown]
    · simp only [Bool.and_eq_true, Bool.not_eq_true'] at hthrows
      obtain ⟨⟨hplain, -⟩, -⟩ := hthrows
      cases hstep
      exact ⟨b, read, hsel, by simpa using hother, hplain, hsome⟩
    · have hown : c.own = true := by simpa using hother
      cases hstep
      rcases c.call_cases (c.req.keywordsOp c.u read) env (.deleted b read) ⟨dbw, .keywords b read⟩
        with heq | ⟨err, heq⟩ | ⟨db', hcommit, heq⟩
      · rw [heq]
        exact ⟨rfl, hsel, hsome⟩
      · rw [heq]
        trivial
      · have hplain : c.req.plain c.u = true := by
          by_contra hnot
          exact hthrows (by simp [hnot, keywordsBatch_found hsel hsome hcommit])
        rw [heq]
        exact ⟨hdb.commits hcommit, hsel, keywordsLeft_commits hown hplain hsel hcommit, fun _ => hplain⟩
  | deleted b read =>
    obtain ⟨hsound, hsel, hleft, hplain⟩ := h
    have hplain' : c.own = true → c.req.plain c.u = true ∨ NonePasses c.req b db :=
      fun hown => .inl (hplain hown)
    simp only [Setup.advance] at hstep
    split at hstep
    · rename_i deleted hd
      cases hstep
      rcases c.call_cases (c.req.deletedOp b read deleted) env (c.fetch read) ⟨dbw, .deleted b read⟩
        with heq | ⟨err, heq⟩ | ⟨db', hcommit, heq⟩
      · rw [heq]
        exact ⟨hsound, hsel, hleft, hplain⟩
      · rw [heq]
        trivial
      · rw [heq]
        exact ⟨b, read, hsel, left_commits hsound hsel hleft hd hcommit, rfl, hplain'⟩
    · rename_i hd
      cases hstep
      exact ⟨b, read, hsel, hleft.untouched hsel hd, rfl, hplain'⟩
  | fetching fetch failed =>
    cases fetch with
    | done found =>
      cases found with
      | none =>
        cases hstep
        trivial
      | some messages =>
        cases hstep
        exact h
    | throw err =>
      cases hstep
      trivial
    | query k =>
      cases hstep
      exact h
  | _ => cases hstep

theorem not_failed (hdb : Sound db) (hsel : Selected c b db read)
    {p : Membership × MessageRow} (hp : p ∈ read) :
    p.1.uid ∉ c.req.failed read ↔ p ∈ c.req.rows read := by
  have hmem : p.1.uid ∈ c.req.failed read ↔
      ∃ q ∈ read, c.req.passes q = false ∧ q.1.uid = p.1.uid := by
    simp only [StoreRequest.failed, StoreRequest.sorted, List.mem_map, List.mem_filter,
      List.mem_insertionSort, Bool.not_eq_true', and_assoc]
  have hsame : ∀ q ∈ read, q.1.uid = p.1.uid → q = p := by
    intro q hq huid
    obtain ⟨hqj, hqm, hqb, -⟩ := hsel.joined q hq
    obtain ⟨hpj, hpm, hpb, -⟩ := hsel.joined p hp
    have hfirst : q.1 = p.1 := hdb.membership_eq hqm hpm (hqb.trans hpb.symm) huid
    have hsecond : q.2 = p.2 := by
      apply List.inj_on_of_nodup_map hdb.keyed.message hqj.message hpj.message
      rw [hqj.same, hpj.same, hfirst]
    exact Prod.ext hfirst hsecond
  rw [hmem, mem_rows]
  constructor
  · intro hnot
    refine ⟨hp, ?_⟩
    by_contra hfail
    exact hnot ⟨p, hp, by simpa using hfail, rfl⟩
  · rintro ⟨-, hpass⟩ ⟨q, hq, hfail, huid⟩
    rw [hsame q hq huid, hpass] at hfail
    cases hfail

theorem stored_iff (hdb : Sound db) (hsel : Selected c b db read) (hleft : Left c db db' read)
    (hown : c.own = true → c.req.plain c.u = true ∨ NonePasses c.req b db) :
    Stored c.u c.req b db db' (c.req.failed read) ↔ Storable c b db := by
  have hrows : ∀ r, Target c.req b db r → r.uid ∉ c.req.failed read →
      ∃ p ∈ c.req.rows read, p.1 = r := by
    rintro r hr hnot
    obtain ⟨p, hp, rfl⟩ := hsel.all r hr
    exact ⟨p, (not_failed hdb hsel hp).mp hnot, rfl⟩
  rw [Storable]
  constructor
  · intro hstored
    split_ifs with h
    · exact hown h
    · intro p hjoined htarget hpass k
      have hrow : p ∈ c.req.rows read := mem_rows.mpr ⟨hsel.mem hdb hjoined htarget, hpass⟩
      have hnot := (not_failed hdb hsel (mem_rows.mp hrow).1).mpr hrow
      have hkeywords := hleft.keywords p hrow k
      rw [KeywordAfter, if_neg h] at hkeywords
      exact hkeywords.symm.trans ((hstored.flags p.1 htarget hnot).2 k)
  · intro hok
    refine ⟨fun r hr hnot => ?_, fun id hnot => ?_⟩
    · obtain ⟨p, hp, rfl⟩ := hrows r hr hnot
      refine ⟨hleft.marks p hp, fun k => ?_⟩
      rw [hleft.keywords p hp k, KeywordAfter]
      split_ifs at hok ⊢
      · exact Iff.rfl
      · obtain ⟨hpr, hpass⟩ := mem_rows.mp hp
        exact hok p (hsel.joined p hpr).1 (hsel.joined p hpr).2 hpass k
    · refine hleft.others id fun p hp => ?_
      have hpr := (mem_rows.mp hp).1
      exact hnot p.1 (hsel.joined p hpr).2 ((not_failed hdb hsel hpr).mpr hp)

end

def seenSetup (own : Bool) : Setup :=
  { testSetup with own := own, req := { uids := [1], mode := .add, flags := ["\\Seen".toList] } }

def oneMessage : List Invocation :=
  [⟨.appendMessages [{ mailboxIds := [['i']], blobId := ['b'], sizeBytes := 5, receivedAt := 0 }],
    fun _ => testEnv 'a'⟩]

def answer (w : ConditionalStore.World) : Option StoreReply :=
  match w.phase with
  | .replied reply => some reply
  | _ => none

theorem replied_of_answer {w : ConditionalStore.World} {reply : StoreReply}
    (h : answer w = some reply) :
    w.phase = .replied reply := by
  rw [answer] at h
  split at h
  · rename_i hphase
    cases h
    exact hphase
  · cases h

def seenRun (own : Bool) : Option ConditionalStore.World :=
  Schedule.run (seenSetup own).step ((List.replicate 9 (testEnv 'c')).map .store)
    ⟨performAll (seenSetup own).u oneMessage (newAccount ['a'] ['i'] 0 0), .start⟩

end Ionosphere.Server.StoreFlags
