import Ionosphere.Lib.Ranked
import Ionosphere.Store.Uids

/-! The tree of mailboxes over runs of create, delete and rename. A rename climbs from the new
parent for a hundred steps at most to see that it is not below the mailbox. -/
namespace Ionosphere.Store

open Ionosphere.Js Ionosphere.Lib Relation

/-- `p` is the parent of the active mailbox `c`; the root is no mailbox. -/
def ParentOf (db : Db) (p c : Id) : Prop :=
  p ≠ [] ∧ ∃ b ∈ db.mailboxes, b.status = .active ∧ b.id = c ∧ b.parentId = p

/-- `id` is an active mailbox. -/
def Active (db : Db) (id : Id) : Prop := ∃ b ∈ db.mailboxes, b.status = .active ∧ b.id = id

structure Forest (db : Db) : Prop where
  acyclic : ∀ id, ¬ TransGen (ParentOf db) id id
  rooted : ∀ b ∈ db.mailboxes, b.status = .active → b.parentId = [] ∨ Active db b.parentId

/-- The `n`th mailbox above `id`, or the root. -/
def above (db : Db) : Nat → Id → Id
  | 0, id => id
  | n + 1, id =>
    if id = [] then [] else ((activeMailbox id db).map fun b => above db n b.parentId).getD []

/-- A rename to a place a hundred levels or more below the mailbox itself. -/
def TooDeep (db : Db) : Op → Prop
  | .renameMailbox mailboxId newParentId _ => ∃ n, 100 ≤ n ∧ above db n newParentId = mailboxId
  | _ => False

def TreeOp : Op → Prop
  | .createMailbox _ _ _ => True
  | .deleteMailbox _ => True
  | .renameMailbox _ _ _ => True
  | _ => False

def Shallow (u : CaseMap) : List Invocation → Db → Prop
  | [], _ => True
  | c :: calls, db => ¬ TooDeep db c.op ∧ Shallow u calls (perform u c db)

section

variable {u : CaseMap} {db db' : Db} {env : Env}

theorem activeMailbox_of_mem (hkeyed : Keyed db) {b : MailboxRow} (hb : b ∈ db.mailboxes)
    (hactive : b.status = .active) : activeMailbox b.id db = some b := by
  cases h : activeMailbox b.id db with
  | none =>
    rw [activeMailbox, List.find?_eq_none] at h
    exact absurd (by simp [hactive]) (h b hb)
  | some b' =>
    have hb' := activeMailbox_spec h
    rw [List.inj_on_of_nodup_map hkeyed.mailbox hb'.1 hb hb'.2.1]

theorem active_of_some {id : Id} {b : MailboxRow} (h : activeMailbox id db = some b) :
    Active db id :=
  ⟨b, (activeMailbox_spec h).1, (activeMailbox_spec h).2.2, (activeMailbox_spec h).2.1⟩

theorem above_root (db : Db) (n : Nat) : above db n [] = [] := by
  cases n with
  | zero => rfl
  | succ n => rw [above, if_pos rfl]

theorem exists_above (hkeyed : Keyed db) {m q : Id} (h : ReflTransGen (ParentOf db) m q)
    (hq : q ≠ []) : ∃ n, above db n q = m := by
  induction h with
  | refl => exact ⟨0, rfl⟩
  | tail _ hp ih =>
    obtain ⟨hne, b, hb, hactive, rfl, rfl⟩ := hp
    obtain ⟨n, hn⟩ := ih hne
    exact ⟨n + 1, by rw [above, if_neg hq, activeMailbox_of_mem hkeyed hb hactive]; exact hn⟩

theorem climb_above {m p : Id} {k : Nat} {cursor : Id}
    (h : (climb m p k cursor).on db = .ok ()) :
    ∀ n < k, above db n cursor = [] ∨ above db n cursor ≠ m := by
  induction k generalizing cursor with
  | zero => exact fun n hn => absurd hn (Nat.not_lt_zero n)
  | succ k ih =>
    intro n hn
    rw [climb] at h
    by_cases hroot : cursor = []
    · left
      cases n with
      | zero => exact hroot
      | succ n => rw [above, if_pos hroot]
    · rw [if_neg hroot, Reads.on_check] at h
      obtain ⟨hne, h⟩ := h
      cases n with
      | zero => exact .inr (of_decide_eq_true hne)
      | succ n =>
        obtain ⟨b, hb, h⟩ := Reads.of_select h rfl
        rw [above, if_neg hroot, hb]
        exact ih h n (Nat.lt_of_succ_lt_succ hn)

theorem climb_active {m p : Id} {k : Nat} {cursor : Id} (hroot : cursor ≠ [])
    (h : (climb m p (k + 1) cursor).on db = .ok ()) : Active db cursor := by
  rw [climb, if_neg hroot, Reads.on_check] at h
  obtain ⟨-, h⟩ := h
  obtain ⟨b, hb, -⟩ := Reads.of_select h rfl
  exact active_of_some hb

theorem mailboxStmts_mailboxes {next now : Nat} {id : Id} {set : MailboxSet} {kind : ChangeKind}
    (h : batch (mailboxStmts next now id set kind) db = some db') :
    db'.mailboxes = db.mailboxes.map fun b => if b.id = id then set.apply b else b := by
  rw [batch_mailboxes h]
  simp only [mailboxStmts, log, across_cons, across_nil, Stmt.onMailboxes, List.map_map]
  rfl

theorem createMailboxStmts_mailboxes {next now uidvalidity : Nat} {id parentId : Id} {name : Text}
    {role : Option Text}
    (h : batch (createMailboxStmts next now uidvalidity id parentId name role) db = some db') :
    db'.mailboxes = db.mailboxes ++
      [{ id := id, parentId := parentId, name := name, role := role, uidvalidity := uidvalidity
         highestmodseq := next }] := by
  rw [batch_mailboxes h]
  simp only [createMailboxStmts, log, across_cons, across_nil, Stmt.onMailboxes, List.map_append,
    List.map_map]
  exact congrArg (· ++ _) (List.map_id _)

theorem create_commits {parentId : Id} {name : Text} {role : Option Text}
    (h : Commits u (.createMailbox parentId name role) env db db') :
    (parentId = [] ∨ Active db parentId) ∧ ∃ row : MailboxRow,
      db'.mailboxes = db.mailboxes ++ [row] ∧ row.id = env.ulid 0 ∧ row.parentId = parentId := by
  obtain ⟨_, hon, hbatch⟩ := h
  rw [Op.attempt, on_stmts] at hon
  obtain ⟨plan, hon, rfl⟩ := hon
  rw [createMailboxAttempt, on_mustGetAccount] at hon
  obtain ⟨-, hon⟩ := hon
  obtain ⟨x, hparent, hon⟩ := Reads.of_bind hon
  simp only [Reads.on_select_bind, Reads.on_check] at hon
  obtain ⟨-, hon⟩ := hon
  cases hon
  refine ⟨?_, _, createMailboxStmts_mailboxes hbatch, rfl, rfl⟩
  by_cases hroot : parentId = []
  · exact .inl hroot
  · right
    rw [checkParent, if_neg hroot, Reads.on_select_bind] at hparent
    cases hfound : activeMailbox parentId db with
    | none => simp [hfound, Reads.check] at hparent
    | some b => exact active_of_some hfound

theorem delete_commits {mailboxId : Id} (h : Commits u (.deleteMailbox mailboxId) env db db') :
    (∀ b ∈ db.mailboxes, b.status = .active → b.parentId ≠ mailboxId) ∧ ∃ set : MailboxSet,
      set.status = some .deleted ∧
      db'.mailboxes = db.mailboxes.map fun b => if b.id = mailboxId then set.apply b else b := by
  obtain ⟨plan, hon, hbatch⟩ := h
  rw [Op.attempt, deleteMailboxAttempt, on_mustGetAccount] at hon
  obtain ⟨-, hon⟩ := hon
  obtain ⟨b, -, hon⟩ := Reads.of_select hon rfl
  simp only [Reads.on_check, Reads.on_select_bind] at hon
  obtain ⟨-, hnone, hon⟩ := hon
  cases hon
  refine ⟨fun c hc hactive hchild => ?_, _, rfl, mailboxStmts_mailboxes hbatch⟩
  rw [Bool.not_eq_true', List.any_eq_false] at hnone
  exact hnone c hc (by simp [hchild, hactive])

theorem rename_commits {mailboxId newParentId : Id} {newName : Text}
    (h : Commits u (.renameMailbox mailboxId newParentId newName) env db db') :
    (climb mailboxId newParentId 100 newParentId).on db = .ok () ∧ Active db mailboxId ∧
      ∃ set : MailboxSet, set.status = none ∧ set.parentId = some newParentId ∧
      db'.mailboxes = db.mailboxes.map fun b => if b.id = mailboxId then set.apply b else b := by
  obtain ⟨plan, hon, hbatch⟩ := h
  rw [Op.attempt, renameMailboxAttempt, on_mustGetAccount] at hon
  obtain ⟨-, hon⟩ := hon
  obtain ⟨b, hb, hon⟩ := Reads.of_select hon rfl
  rw [Reads.on_check] at hon
  obtain ⟨x, hclimb, hon⟩ := Reads.of_bind hon.2
  simp only [Reads.on_select_bind, Reads.on_check] at hon
  obtain ⟨-, hon⟩ := hon
  cases hon
  exact ⟨hclimb, active_of_some hb, _, rfl, rfl, mailboxStmts_mailboxes hbatch⟩

end

structure Tree (db : Db) : Prop where
  keyed : Keyed db
  ranked : Ranked (ParentOf db)
  rooted : ∀ b ∈ db.mailboxes, b.status = .active → b.parentId = [] ∨ Active db b.parentId

namespace Tree

variable {u : CaseMap} {db db' : Db} {env : Env}

theorem forest (h : Tree db) : Forest db := ⟨h.ranked.acyclic, h.rooted⟩

theorem create {parentId : Id} {name : Text} {role : Option Text} (hdb : Tree db)
    (h : Commits u (.createMailbox parentId name role) env db db') : Tree db' := by
  obtain ⟨hparent, row, hmailboxes, -, rfl⟩ := create_commits h
  have hkeyed : Keyed db' := h.elim fun plan hplan => batch_keyed hdb.keyed hplan.2
  have hstay : ∀ id, Active db id → Active db' id := by
    rintro id ⟨b, hb, hactive, rfl⟩
    exact ⟨b, hmailboxes ▸ List.mem_append_left _ hb, hactive, rfl⟩
  have hnew : ∀ b ∈ db.mailboxes, b.id ≠ row.id := by
    have hnodup := hkeyed.mailbox
    rw [hmailboxes, List.map_append, List.nodup_append] at hnodup
    exact fun b hb => hnodup.2.2 _ (List.mem_map_of_mem hb) _ List.mem_cons_self
  -- no mailbox is below the new one
  have hleaf : ∀ c, ¬ ParentOf db row.id c := by
    rintro c ⟨hne, b, hb, hactive, -, hid⟩
    rcases hdb.rooted b hb hactive with hroot | ⟨p, hp, -, hpid⟩
    · exact hne (hid.symm.trans hroot)
    · exact hnew p hp (hpid.trans hid)
  have hrows : ∀ b ∈ db'.mailboxes, b ∈ db.mailboxes ∨ b = row := by
    intro b hb
    rw [hmailboxes, List.mem_append, List.mem_singleton] at hb
    exact hb
  refine ⟨hkeyed, ?_, fun b hb hactive => ?_⟩
  · by_cases hroot : row.parentId = []
    · refine hdb.ranked.mono ?_
      rintro p c ⟨hne, b, hb, hactive, rfl, rfl⟩
      rcases hrows b hb with hb | rfl
      · exact ⟨hne, b, hb, hactive, rfl, rfl⟩
      · exact absurd hroot hne
    · refine hdb.ranked.graft (m := row.id) (q := row.parentId) (fun hdown => ?_) ?_
      · rcases hdown.cases_head with heq | ⟨c, hc, -⟩
        · obtain ⟨p, hp, -, hpid⟩ := hparent.resolve_left hroot
          exact hnew p hp (hpid.trans heq.symm)
        · exact hleaf c hc
      · rintro p c ⟨hne, b, hb, hactive, rfl, rfl⟩
        rcases hrows b hb with hb | rfl
        · exact .inr ⟨hne, b, hb, hactive, rfl, rfl⟩
        · exact .inl ⟨rfl, rfl⟩
  · rcases hrows b hb with hb | rfl
    · exact (hdb.rooted b hb hactive).imp_right (hstay _)
    · exact hparent.imp_right (hstay _)

theorem delete {mailboxId : Id} (hdb : Tree db)
    (h : Commits u (.deleteMailbox mailboxId) env db db') : Tree db' := by
  obtain ⟨hchildren, set, hstatus, hmailboxes⟩ := delete_commits h
  have hkeyed : Keyed db' := h.elim fun plan hplan => batch_keyed hdb.keyed hplan.2
  -- what is active is an old row with another id
  have hrows : ∀ b ∈ db'.mailboxes, b.status = .active → b ∈ db.mailboxes ∧ b.id ≠ mailboxId := by
    intro b hb hactive
    rw [hmailboxes, List.mem_map] at hb
    obtain ⟨b, hb, rfl⟩ := hb
    split_ifs at hactive ⊢ with hid
    · rw [MailboxSet.apply, hstatus] at hactive
      cases hactive
    · exact ⟨hb, hid⟩
  refine ⟨hkeyed, hdb.ranked.mono ?_, fun b hb hactive => ?_⟩
  · rintro p c ⟨hne, b, hb, hactive, rfl, rfl⟩
    exact ⟨hne, b, (hrows b hb hactive).1, hactive, rfl, rfl⟩
  · have hb := (hrows b hb hactive).1
    refine (hdb.rooted b hb hactive).imp_right fun ⟨p, hp, hpactive, hpid⟩ => ⟨p, ?_, hpactive, hpid⟩
    have hne : p.id ≠ mailboxId := hpid.symm ▸ hchildren b hb hactive
    rw [hmailboxes, List.mem_map]
    exact ⟨p, hp, if_neg hne⟩

theorem rename {mailboxId newParentId : Id} {newName : Text} (hdb : Tree db)
    (h : Commits u (.renameMailbox mailboxId newParentId newName) env db db')
    (hshallow : ¬ TooDeep db (.renameMailbox mailboxId newParentId newName)) : Tree db' := by
  obtain ⟨hclimb, -, set, hstatus, hparent, hmailboxes⟩ := rename_commits h
  have hkeyed : Keyed db' := h.elim fun plan hplan => batch_keyed hdb.keyed hplan.2
  have hrows : ∀ b ∈ db'.mailboxes, b.status = .active →
      ∃ b₀ ∈ db.mailboxes, b₀.status = .active ∧ b.id = b₀.id ∧
        (b.id = mailboxId ∧ b.parentId = newParentId ∨ b.parentId = b₀.parentId) := by
    intro b hb hactive
    rw [hmailboxes, List.mem_map] at hb
    obtain ⟨b, hb, rfl⟩ := hb
    split_ifs at hactive ⊢ with hid
    · rw [MailboxSet.apply, hstatus] at hactive
      refine ⟨b, hb, hactive, rfl, .inl ⟨hid, ?_⟩⟩
      rw [MailboxSet.apply, hparent]
      rfl
    · exact ⟨b, hb, hactive, rfl, .inr rfl⟩
  have hstay : ∀ id, Active db id → Active db' id := by
    rintro id ⟨b, hb, hactive, rfl⟩
    refine ⟨if b.id = mailboxId then set.apply b else b, ?_, ?_, ?_⟩
    · rw [hmailboxes]
      exact List.mem_map_of_mem hb
    · split_ifs
      · rw [MailboxSet.apply, hstatus]
        exact hactive
      · exact hactive
    · split_ifs <;> rfl
  have hedge : ∀ p c, ParentOf db' p c → p = newParentId ∧ c = mailboxId ∨ ParentOf db p c := by
    rintro p c ⟨hne, b, hb, hactive, rfl, rfl⟩
    obtain ⟨b₀, hb₀, hactive₀, hid, ⟨hm, hp⟩ | hp⟩ := hrows b hb hactive
    · exact .inl ⟨hp, hm⟩
    · exact .inr ⟨hne, b₀, hb₀, hactive₀, hid.symm, hp.symm⟩
  refine ⟨hkeyed, ?_, fun b hb hactive => ?_⟩
  · by_cases hroot : newParentId = []
    · refine hdb.ranked.mono fun p c hc => (hedge p c hc).resolve_left ?_
      rintro ⟨rfl, -⟩
      exact hc.1 hroot
    · refine hdb.ranked.graft (fun hdown => ?_) hedge
      obtain ⟨n, hn⟩ := exists_above hdb.keyed hdown hroot
      have hmet : n < 100 := Nat.not_le.mp fun hle => hshallow ⟨n, hle, hn⟩
      rcases climb_above hclimb n hmet with hend | hother
      · -- the root has no children, so nothing but itself is below it
        rw [hn] at hend
        subst hend
        rcases hdown.cases_head with heq | ⟨c, hc, -⟩
        · exact hroot heq.symm
        · exact hc.1 rfl
      · exact hother hn
  · obtain ⟨b₀, hb₀, hactive₀, -, ⟨-, hp⟩ | hp⟩ := hrows b hb hactive
    · rw [hp]
      by_cases hroot : newParentId = []
      · exact .inl hroot
      · exact .inr (hstay _ (climb_active hroot hclimb))
    · rw [hp]
      exact (hdb.rooted b₀ hb₀ hactive₀).imp_right (hstay _)

theorem newAccount (accountId mailboxId : Id) (now quotaBytes : Nat) :
    Tree (newAccount accountId mailboxId now quotaBytes) := by
  refine ⟨(sound_newAccount accountId mailboxId now quotaBytes).keyed, ⟨fun _ => 0, ?_⟩, ?_⟩
  · rintro p c ⟨hne, b, hb, -, -, rfl⟩
    cases List.mem_singleton.mp hb
    exact absurd rfl hne
  · intro b hb _
    cases List.mem_singleton.mp hb
    exact .inl rfl

theorem perform (hdb : Tree db) (c : Invocation) (hop : TreeOp c.op) (hshallow : ¬ TooDeep db c.op) :
    Tree (perform u c db) := by
  rcases perform_cases u c db with hsame | ⟨i, h⟩
  · rw [hsame]
    exact hdb
  · obtain ⟨op, draws⟩ := c
    cases op with
    | createMailbox parentId name role => exact hdb.create h
    | deleteMailbox mailboxId => exact hdb.delete h
    | renameMailbox mailboxId newParentId newName => exact hdb.rename h hshallow
    | _ => exact hop.elim

theorem performAll (hdb : Tree db) (calls : List Invocation) (hops : ∀ c ∈ calls, TreeOp c.op)
    (hshallow : Shallow u calls db) : Tree (performAll u calls db) := by
  induction calls generalizing db with
  | nil => exact hdb
  | cons c calls ih =>
    exact ih (hdb.perform c (hops c List.mem_cons_self) hshallow.1)
      (fun c hc => hops c (List.mem_cons_of_mem _ hc)) hshallow.2

end Tree

theorem Shallow.take {u : CaseMap} {calls : List Invocation} {db : Db} (h : Shallow u calls db)
    (n : Nat) : Shallow u (calls.take n) db := by
  induction calls generalizing db n with
  | nil => rw [List.take_nil]; exact h
  | cons c calls ih =>
    cases n with
    | zero => exact trivial
    | succ n => exact ⟨h.1, ih h.2 n⟩

/-- In a run of these operations on a new account, none of which is a rename to a place too deep
below the mailbox, the active mailboxes are a forest in every state. -/
theorem mailbox_forest (u : CaseMap) (accountId mailboxId : Id) (now quotaBytes : Nat)
    (calls : List Invocation) (hops : ∀ c ∈ calls, TreeOp c.op)
    (hshallow : Shallow u calls (newAccount accountId mailboxId now quotaBytes)) (n : Nat) :
    Forest (performAll u (calls.take n) (newAccount accountId mailboxId now quotaBytes)) :=
  ((Tree.newAccount accountId mailboxId now quotaBytes).performAll (calls.take n)
    (fun c hc => hops c (List.mem_of_mem_take hc)) (hshallow.take n)).forest

theorem above_succ {db : Db} {id p : Id} (hne : id ≠ [])
    (hparent : (activeMailbox id db).map (·.parentId) = some p) (n : Nat) :
    above db (n + 1) id = above db n p := by
  obtain ⟨b, hb, rfl⟩ := Option.map_eq_some_iff.mp hparent
  rw [above, if_neg hne, hb]
  rfl

/-- `n` is renamed under `m`, and then `m` is not renamed under `n`. -/
def nest : List Invocation :=
  [⟨.createMailbox [] "a".toList none, fun _ => ⟨0, fun _ => "m".toList⟩⟩,
    ⟨.createMailbox [] "b".toList none, fun _ => ⟨0, fun _ => "n".toList⟩⟩,
    ⟨.renameMailbox "n".toList "m".toList "b".toList, fun _ => ⟨0, fun _ => []⟩⟩,
    ⟨.renameMailbox "m".toList "n".toList "a".toList, fun _ => ⟨0, fun _ => []⟩⟩]

theorem mailbox_forest_nested :
    (performAll ⟨id, id⟩ nest (newAccount [] "i".toList 0 0)).mailboxes.map
        (fun b => (b.id, b.parentId)) =
      [("i".toList, []), ("m".toList, []), ("n".toList, "m".toList)] ∧
    Forest (performAll ⟨id, id⟩ (nest.take 4) (newAccount [] "i".toList 0 0)) := by
  refine ⟨by decide +kernel, mailbox_forest ⟨id, id⟩ [] "i".toList 0 0 nest ?_ ?_ 4⟩
  · simp only [nest, List.forall_mem_cons, TreeOp]
    exact ⟨trivial, trivial, trivial, trivial, List.forall_mem_nil _⟩
  · refine ⟨id, id, ?_, ?_, trivial⟩
    · rintro ⟨n, hn, habove⟩
      obtain ⟨k, rfl⟩ := Nat.exists_eq_add_of_le' (Nat.le_of_succ_le hn)
      rw [above_succ (by decide) (show _ = some [] by decide +kernel), above_root] at habove
      exact absurd habove (by decide)
    · rintro ⟨n, hn, habove⟩
      obtain ⟨k, rfl⟩ := Nat.exists_eq_add_of_le' (Nat.le_trans (by decide : 2 ≤ 100) hn)
      rw [above_succ (by decide) (show _ = some "m".toList by decide +kernel),
        above_succ (by decide) (show _ = some [] by decide +kernel), above_root] at habove
      exact absurd habove (by decide)

section

variable {u : CaseMap} {db db' : Db} {env : Env}

theorem rename_cycle {m q : Id} {name : Text} (hm : m ≠ [])
    (h : Commits u (.renameMailbox m q name) env db db') {n : Nat} (hn : above db n q = m) :
    ¬ Forest db' := by
  obtain ⟨-, ⟨b, hb, hactive, hid⟩, set, hstatus, hparent, hmailboxes⟩ := rename_commits h
  -- the rows on the way up are the old ones, until the way meets the mailbox
  have hdown : ∀ n x, above db n x = m → ReflTransGen (ParentOf db') m x := by
    intro n
    induction n with
    | zero => exact fun x hx => hx ▸ .refl
    | succ n ih =>
      intro x hx
      by_cases hxm : x = m
      · exact hxm ▸ .refl
      · have hxroot : x ≠ [] := fun hnil => hm (by rw [← hx, hnil, above_root])
        rw [above, if_neg hxroot] at hx
        cases hfound : activeMailbox x db with
        | none =>
          rw [hfound] at hx
          exact absurd hx.symm hm
        | some c =>
          rw [hfound] at hx
          have hx : above db n c.parentId = m := hx
          have hc := activeMailbox_spec hfound
          refine (ih c.parentId hx).tail ⟨fun hnil => hm ?_, c, ?_, hc.2.2, hc.2.1, rfl⟩
          · rw [← hx, hnil, above_root]
          · rw [hmailboxes, List.mem_map]
            exact ⟨c, hc.1, if_neg fun h => hxm (hc.2.1.symm.trans h)⟩
  have hq : q ≠ [] := fun hnil => hm (by rw [← hn, hnil, above_root])
  have hedge : ParentOf db' q m := by
    refine ⟨hq, set.apply b, ?_, ?_, hid, ?_⟩
    · rw [hmailboxes, List.mem_map]
      exact ⟨b, hb, if_pos hid⟩
    · rw [MailboxSet.apply, hstatus]
      exact hactive
    · rw [MailboxSet.apply, hparent]
      rfl
  exact fun hforest => hforest.acyclic q (.head' hedge (hdown n q hn))

theorem perform_eq {c : Invocation} (plan : Plan Unit)
    (hon : (c.op.attempt u (c.draws 0)).on db = .ok plan) (hbatch : batch plan.stmts db = some db') :
    perform u c db = db' := by
  have hfirst : attemptOnce (c.op.attempt u (c.draws 0)) db = some (.ok plan.result, db') := by
    rw [attemptOnce, hon]
    exact Option.map_eq_some_iff.mpr ⟨db', hbatch, rfl⟩
  rw [perform, maxRetryAttempts, withRetry, hfirst]

theorem batch_cons {s : Stmt} {stmts : List Stmt} (h : Keyed (s.apply db)) :
    batch (s :: stmts) db = batch stmts (s.apply db) := by
  rw [batch, Stmt.exec, if_pos h]
  rfl

theorem keyed_claim (h : Keyed db) {n : Nat} (hnew : n ∉ db.claims) :
    Keyed ((Stmt.claim n).apply db) :=
  { h with
    mailbox := by
      simpa [Stmt.apply, Stmt.onMailboxes, Stmt.onMailbox, Function.comp_def] using h.mailbox
    mailboxName := by
      simpa [Stmt.apply, Stmt.onMailboxes, Stmt.onMailbox, Function.comp_def] using h.mailboxName
    claim := List.nodup_append.mpr ⟨h.claim, List.nodup_singleton n, by
      intro a ha b hb hab
      exact hnew (List.mem_singleton.mp hb ▸ hab ▸ ha)⟩ }

theorem keyed_log (h : Keyed db) {modseq now : Nat} {kind : ChangeKind} {id : Id}
    (hnew : ∀ c ∈ db.changeLog, c.modseq ≠ modseq) :
    Keyed ((log modseq now .mailbox kind id).apply db) :=
  { h with
    mailbox := by
      simpa [log, Stmt.apply, Stmt.onMailboxes, Stmt.onMailbox, Function.comp_def] using h.mailbox
    mailboxName := by
      simpa [log, Stmt.apply, Stmt.onMailboxes, Stmt.onMailbox, Function.comp_def] using h.mailboxName
    change := by
      simp only [log, Stmt.apply, Stmt.onChangeLog, List.map_append, List.map_cons, List.map_nil]
      refine List.nodup_append.mpr ⟨h.change, List.nodup_singleton _, ?_⟩
      intro a ha b hb hab
      obtain ⟨c, hc, rfl⟩ := List.mem_map.mp ha
      rw [List.mem_singleton.mp hb] at hab
      exact hnew c hc (congrArg Prod.fst hab) }

theorem keyed_updateAccount (h : Keyed db) (set : AccountSet) :
    Keyed ((Stmt.updateAccount set).apply db) :=
  { h with
    mailbox := by
      simpa [Stmt.apply, Stmt.onMailboxes, Stmt.onMailbox, Function.comp_def] using h.mailbox
    mailboxName := by
      simpa [Stmt.apply, Stmt.onMailboxes, Stmt.onMailbox, Function.comp_def] using h.mailboxName }

theorem keyed_insertMailbox (h : Keyed db) {row : MailboxRow}
    (hid : ∀ b ∈ db.mailboxes, b.id ≠ row.id)
    (hname : ∀ b ∈ db.mailboxes, ¬(b.parentId = row.parentId ∧ b.name = row.name)) :
    Keyed ((Stmt.insertMailbox row).apply db) :=
  { h with
    mailbox := by
      simp only [Stmt.apply, Stmt.onMailboxes, List.map_append, List.map_cons, List.map_nil]
      refine List.nodup_append.mpr ⟨h.mailbox, List.nodup_singleton _, ?_⟩
      intro a ha b hb hab
      obtain ⟨c, hc, rfl⟩ := List.mem_map.mp ha
      exact hid c hc (hab.trans (List.mem_singleton.mp hb))
    mailboxName := by
      simp only [Stmt.apply, Stmt.onMailboxes, List.map_append, List.map_cons, List.map_nil]
      refine List.nodup_append.mpr ⟨h.mailboxName, List.nodup_singleton _, ?_⟩
      intro a ha b hb hab
      obtain ⟨c, hc, rfl⟩ := List.mem_map.mp ha
      rw [List.mem_singleton.mp hb] at hab
      exact hname c hc (Prod.mk.inj hab) }

theorem keyed_updateMailbox (h : Keyed db) {id parentId : Id} {name : Text} {set : MailboxSet}
    (hparent : set.parentId = some parentId) (hset : set.name = some name)
    (hname : ∀ b ∈ db.mailboxes, ¬(b.parentId = parentId ∧ b.name = name)) :
    Keyed ((Stmt.updateMailbox id set).apply db) := by
  have hrow : ∀ b, ((Stmt.updateMailbox id set).onMailbox b).id = b.id := by
    intro b
    rw [Stmt.onMailbox]
    split_ifs <;> rfl
  refine { h with mailbox := ?_, mailboxName := ?_ }
  · simp only [Stmt.apply, Stmt.onMailboxes, List.map_map, Function.comp_def, hrow]
    exact h.mailbox
  · simp only [Stmt.apply, Stmt.onMailboxes, List.map_map, Function.comp_def]
    refine List.Nodup.map_on (fun b hb c hc hbc => ?_) h.mailbox.of_map
    have hkeys := Prod.mk.inj hbc
    simp only [Stmt.onMailbox] at hkeys
    split_ifs at hkeys with hbid hcid hcid
    · exact List.inj_on_of_nodup_map h.mailbox hb hc (hbid.trans hcid.symm)
    · simp only [MailboxSet.apply, hparent, hset, Option.getD_some] at hkeys
      exact absurd ⟨hkeys.1.symm, hkeys.2.symm⟩ (hname c hc)
    · simp only [MailboxSet.apply, hparent, hset, Option.getD_some] at hkeys
      exact absurd hkeys (hname b hb)
    · exact List.inj_on_of_nodup_map h.mailboxName hb hc (Prod.ext hkeys.1 hkeys.2)

/-- A state in which the next batch is not refused for its modseq. -/
structure Settled (db : Db) : Prop where
  keyed : Keyed db
  active : db.account.active = true
  claims : ∀ n ∈ db.claims, n ≤ db.account.modseq
  changes : ∀ c ∈ db.changeLog, c.modseq ≤ db.account.modseq

theorem Settled.next (h : Settled db) (s : Stmt) (now : Nat) (kind : ChangeKind) (id : Id)
    (set : AccountSet) (hset : set.modseq = db.account.modseq + 1)
    (hs : ∀ a ts cs, s.onAccount a = a ∧ s.onClaims ts = ts ∧ s.onChangeLog cs = cs)
    (hkeyed : Keyed (s.apply ((Stmt.claim (db.account.modseq + 1)).apply db))) :
    ∃ db', batch [.claim (db.account.modseq + 1), s,
        log (db.account.modseq + 1) now .mailbox kind id, .updateAccount set] db = some db' ∧
      Settled db' ∧ db'.mailboxes = s.onMailboxes db.mailboxes := by
  have hclaim : Keyed ((Stmt.claim (db.account.modseq + 1)).apply db) :=
    keyed_claim h.keyed fun hmem => by have := h.claims _ hmem; omega
  generalize hdb₂ : s.apply ((Stmt.claim (db.account.modseq + 1)).apply db) = db₂ at hkeyed
  have hchangeLog : db₂.changeLog = db.changeLog := by
    rw [← hdb₂]
    exact (hs db.account [] _).2.2
  have hlog : Keyed ((log (db.account.modseq + 1) now .mailbox kind id).apply db₂) :=
    keyed_log hkeyed fun c hc => by have := h.changes c (hchangeLog ▸ hc); omega
  refine ⟨_, ?_, ⟨keyed_updateAccount hlog set, ?_, ?_, ?_⟩, ?_⟩
  · rw [batch_cons hclaim, batch_cons (hdb₂ ▸ hkeyed), hdb₂, batch_cons hlog,
      batch_cons (keyed_updateAccount hlog set), batch]
  · rw [← hdb₂]
    change (set.apply (s.onAccount db.account)).active = true
    rw [(hs db.account [] []).1]
    exact h.active
  · rw [← hdb₂]
    change ∀ n ∈ s.onClaims (db.claims ++ [db.account.modseq + 1]), n ≤ set.modseq
    rw [(hs db.account _ []).2.1, hset]
    intro n hn
    rcases List.mem_append.mp hn with hn | hn
    · exact Nat.le_succ_of_le (h.claims n hn)
    · exact Nat.le_of_eq (List.mem_singleton.mp hn)
  · change ∀ c ∈ db₂.changeLog ++ [_], c.modseq ≤ set.modseq
    rw [hchangeLog, hset]
    intro c hc
    rcases List.mem_append.mp hc with hc | hc
    · exact Nat.le_succ_of_le (h.changes c hc)
    · rw [List.mem_singleton.mp hc]
  · rw [← hdb₂]
    exact (List.map_id _).trans ((List.map_id _).trans
      (congrArg s.onMailboxes (List.map_id db.mailboxes)))

theorem create_succeeds (h : Settled db) {parentId : Id} {name : Text} (draws : Nat → Env)
    (hparent : parentId = [] ∨ Active db parentId)
    (hid : ∀ b ∈ db.mailboxes, b.id ≠ (draws 0).ulid 0)
    (hname : ∀ b ∈ db.mailboxes, ¬(b.parentId = parentId ∧ b.name = name)) :
    ∃ row : MailboxRow, row.id = (draws 0).ulid 0 ∧ row.parentId = parentId ∧ row.name = name ∧
      row.status = .active ∧ row.role = none ∧
      Settled (perform u ⟨.createMailbox parentId name none, draws⟩ db) ∧
      (perform u ⟨.createMailbox parentId name none, draws⟩ db).mailboxes = db.mailboxes ++ [row] := by
  have hclaim : Keyed ((Stmt.claim (db.account.modseq + 1)).apply db) :=
    keyed_claim h.keyed fun hmem => by have := h.claims _ hmem; omega
  have hmailboxes : ((Stmt.claim (db.account.modseq + 1)).apply db).mailboxes = db.mailboxes :=
    List.map_id _
  have hcheck : (checkParent parentId).on db = .ok () := by
    rw [checkParent]
    by_cases hroot : parentId = []
    · rw [if_pos hroot]
      rfl
    · obtain ⟨b, hb, hactive, rfl⟩ := hparent.resolve_left hroot
      rw [if_neg hroot, Reads.on_select_bind, activeMailbox_of_mem h.keyed hb hactive]
      rfl
  have hfree : (!db.mailboxes.any fun b => b.parentId = parentId && b.name = name) = true := by
    rw [Bool.not_eq_true', List.any_eq_false]
    intro b hb hsame
    exact hname b hb (by simpa using hsame)
  generalize hv : max ((draws 0).now / 1000) (db.account.uidvalidityLast + 1) = v
  let row : MailboxRow :=
    { id := (draws 0).ulid 0, parentId := parentId, name := name, role := none, uidvalidity := v
      highestmodseq := db.account.modseq + 1 }
  obtain ⟨db', hbatch, hsettled, hrows⟩ := h.next (.insertMailbox row) (draws 0).now .created
    ((draws 0).ulid 0)
    { modseq := db.account.modseq + 1, mailbox := true, uidvalidityLast := some v } rfl (fun _ _ _ => ⟨rfl, rfl, rfl⟩)
    (keyed_insertMailbox hclaim (hmailboxes ▸ hid) (hmailboxes ▸ hname))
  have hperform : perform u ⟨.createMailbox parentId name none, draws⟩ db = db' := by
    refine perform_eq ⟨_, ()⟩ ?_ hbatch
    refine on_stmts.mpr ⟨⟨_, ((draws 0).ulid 0, v)⟩, ?_, rfl⟩
    rw [createMailboxAttempt, on_mustGetAccount]
    refine ⟨h.active, ?_⟩
    simp only [Reads.on_bind, hcheck, Except.bind, Reads.on_select, Reads.check, hfree, if_true]
    rw [AccountRow.snapshot, hv]
    rfl
  rw [hperform]
  exact ⟨row, rfl, rfl, rfl, rfl, rfl, hsettled, hrows⟩

theorem rename_succeeds (h : Settled db) {mailboxId newParentId : Id} {newName : Text}
    (draws : Nat → Env) {b : MailboxRow} (hb : activeMailbox mailboxId db = some b)
    (hinbox : isInbox b = false)
    (hclimb : (climb mailboxId newParentId 100 newParentId).on db = .ok ())
    (hname : ∀ c ∈ db.mailboxes, ¬(c.parentId = newParentId ∧ c.name = newName)) :
    Commits u (.renameMailbox mailboxId newParentId newName) (draws 0) db
      (perform u ⟨.renameMailbox mailboxId newParentId newName, draws⟩ db) := by
  have hclaim : Keyed ((Stmt.claim (db.account.modseq + 1)).apply db) :=
    keyed_claim h.keyed fun hmem => by have := h.claims _ hmem; omega
  have hmailboxes : ((Stmt.claim (db.account.modseq + 1)).apply db).mailboxes = db.mailboxes :=
    List.map_id _
  have hfree : (!db.mailboxes.any fun c =>
      c.parentId = newParentId && c.name = newName && c.id ≠ mailboxId) = true := by
    rw [Bool.not_eq_true', List.any_eq_false]
    intro c hc hsame
    simp only [Bool.and_eq_true, decide_eq_true_eq] at hsame
    exact hname c hc hsame.1
  let set : MailboxSet :=
    { parentId := some newParentId, name := some newName, highestmodseq := db.account.modseq + 1 }
  obtain ⟨db', hbatch, -, -⟩ := h.next (.updateMailbox mailboxId set) (draws 0).now .updated
    mailboxId { modseq := db.account.modseq + 1, mailbox := true } rfl (fun _ _ _ => ⟨rfl, rfl, rfl⟩)
    (keyed_updateMailbox hclaim rfl rfl (hmailboxes ▸ hname))
  have hon : (Op.attempt u (.renameMailbox mailboxId newParentId newName) (draws 0)).on db =
      .ok ⟨mailboxStmts (db.account.modseq + 1) (draws 0).now mailboxId set .updated, ()⟩ := by
    rw [Op.attempt, renameMailboxAttempt, on_mustGetAccount]
    refine ⟨h.active, ?_⟩
    rw [Reads.on_select_bind, hb]
    simp only [Reads.on_bind, hclimb, Except.bind, Reads.on_select]
    simp only [Reads.check, hfree, hinbox]
    rfl
  rw [perform_eq _ hon hbatch]
  exact ⟨_, hon, hbatch⟩

end

/-- The ids of a branch that goes straight down from the root. -/
def link (k : Nat) : Id := List.replicate (k + 1) 'm'

def grow (k : Nat) : Invocation :=
  ⟨.createMailbox (List.replicate k 'm') "x".toList none, fun _ => ⟨0, fun _ => link k⟩⟩

/-- The branch has `k` mailboxes. -/
structure Branch (k : Nat) (db : Db) : Prop where
  settled : Settled db
  links : ∀ j < k, ∃ b, activeMailbox (link j) db = some b ∧ b.parentId = List.replicate j 'm' ∧
    b.role = none
  rows : ∀ b ∈ db.mailboxes, (b.name ≠ "x".toList ∧ ∀ j, b.id ≠ link j) ∨
    ∃ j < k, b.id = link j ∧ b.parentId = List.replicate j 'm'

theorem link_ne (k : Nat) : link k ≠ [] := List.cons_ne_nil _ _

theorem link_inj {j k : Nat} (h : link j = link k) : j = k := by
  have hlen := congrArg List.length h
  simpa [link] using hlen

namespace Branch

variable {u : CaseMap} {k : Nat} {db : Db}

theorem root (accountId : Id) (now quotaBytes : Nat) :
    Branch 0 (newAccount accountId "i".toList now quotaBytes) := by
  refine ⟨⟨(sound_newAccount _ _ _ _).keyed, rfl, nofun, nofun⟩, nofun, fun b hb => .inl ?_⟩
  cases List.mem_singleton.mp hb
  refine ⟨fun h => absurd (List.cons.inj h).1 (by decide), fun j h => ?_⟩
  exact absurd (List.cons.inj h).1 (by decide)

theorem grow (h : Branch k db) : Branch (k + 1) (perform u (grow k) db) := by
  have hparent : List.replicate k 'm' = [] ∨ Active db (List.replicate k 'm') := by
    cases k with
    | zero => exact .inl rfl
    | succ k =>
      obtain ⟨b, hb, -⟩ := h.links k (Nat.lt_succ_self k)
      exact .inr (active_of_some hb)
  have hid : ∀ b ∈ db.mailboxes, b.id ≠ link k := by
    intro b hb heq
    rcases h.rows b hb with ⟨-, hother⟩ | ⟨j, hj, hjid, -⟩
    · exact hother k heq
    · exact absurd (link_inj (hjid.symm.trans heq)) (Nat.ne_of_lt hj)
  have hname : ∀ b ∈ db.mailboxes,
      ¬(b.parentId = List.replicate k 'm' ∧ b.name = "x".toList) := by
    rintro b hb ⟨hp, hx⟩
    rcases h.rows b hb with ⟨hother, -⟩ | ⟨j, hj, -, hjp⟩
    · exact hother hx
    · have hlen := congrArg List.length (hjp.symm.trans hp)
      simp only [List.length_replicate] at hlen
      omega
  obtain ⟨row, hrid, hrparent, hrname, hractive, hrrole, hsettled, hmailboxes⟩ :=
    create_succeeds (u := u) h.settled (fun _ => ⟨0, fun _ => link k⟩) hparent hid hname
  refine ⟨hsettled, fun j hj => ?_, fun b hb => ?_⟩
  · rcases Nat.lt_succ_iff_lt_or_eq.mp hj with hj | rfl
    · obtain ⟨b, hb, hrest⟩ := h.links j hj
      have hspec := activeMailbox_spec hb
      refine ⟨b, ?_, hrest⟩
      rw [← hspec.2.1]
      exact activeMailbox_of_mem hsettled.keyed
        (hmailboxes ▸ List.mem_append_left _ hspec.1) hspec.2.2
    · refine ⟨row, ?_, hrparent, hrrole⟩
      have hrid : row.id = link j := hrid
      rw [← hrid]
      exact activeMailbox_of_mem hsettled.keyed
        (hmailboxes ▸ List.mem_append_right _ (List.mem_singleton_self row)) hractive
  · rw [show (perform u (Store.grow k) db).mailboxes = _ from hmailboxes] at hb
    rcases List.mem_append.mp hb with hb | hb
    · exact (h.rows b hb).imp_right fun ⟨j, hj, hrest⟩ => ⟨j, Nat.lt_succ_of_lt hj, hrest⟩
    · rw [List.mem_singleton.mp hb]
      exact .inr ⟨k, Nat.lt_succ_self k, hrid, hrparent⟩

theorem growAll (accountId : Id) (now quotaBytes k : Nat) :
    Branch k (performAll u ((List.range k).map Store.grow)
      (newAccount accountId "i".toList now quotaBytes)) := by
  induction k with
  | zero => exact root accountId now quotaBytes
  | succ k ih =>
    rw [List.range_succ, List.map_append, performAll, List.foldl_append]
    exact ih.grow

theorem climb (h : Branch k db) (p : Id) {n j : Nat} (hj : j < k) (hn : n ≤ j) :
    (climb (link 0) p n (link j)).on db = .ok () := by
  induction n generalizing j with
  | zero => rfl
  | succ n ih =>
    obtain ⟨i, rfl⟩ : ∃ i, j = i + 1 := ⟨j - 1, by omega⟩
    obtain ⟨b, hb, hparent, -⟩ := h.links (i + 1) hj
    have hne : link (i + 1) ≠ link 0 := fun heq => absurd (link_inj heq) (Nat.succ_ne_zero i)
    rw [Store.climb, if_neg (link_ne _), Reads.on_check]
    refine ⟨decide_eq_true hne, ?_⟩
    rw [Reads.on_select_bind, hb]
    dsimp only
    rw [hparent]
    exact ih (Nat.lt_of_succ_lt hj) (Nat.le_of_succ_le_succ hn)

theorem above (h : Branch k db) {n : Nat} (hn : n < k) : above db n (link n) = link 0 := by
  induction n with
  | zero => rfl
  | succ n ih =>
    obtain ⟨b, hb, hparent, -⟩ := h.links (n + 1) hn
    rw [Store.above, if_neg (link_ne _), hb, Option.map_some, Option.getD_some, hparent]
    exact ih (Nat.lt_of_succ_lt hn)

theorem cycle (accountId : Id) (now quotaBytes : Nat) (hk : 100 ≤ k) :
    ¬ Forest (performAll u ((List.range (k + 1)).map Store.grow ++
      [⟨.renameMailbox (link 0) (link k) "x".toList, fun _ => ⟨0, fun _ => []⟩⟩])
      (newAccount accountId "i".toList now quotaBytes)) := by
  have hbranch := growAll (u := u) accountId now quotaBytes (k + 1)
  rw [performAll, List.foldl_append]
  change ¬ Forest (perform u _ (performAll u _ _))
  generalize performAll u _ _ = db at hbranch ⊢
  obtain ⟨b, hb, -, hrole⟩ := hbranch.links 0 (Nat.succ_pos k)
  have hinbox : isInbox b = false := by rw [isInbox, hrole]; rfl
  have hname : ∀ c ∈ db.mailboxes, ¬(c.parentId = link k ∧ c.name = "x".toList) := by
    rintro c hc ⟨hp, hx⟩
    rcases hbranch.rows c hc with ⟨hother, -⟩ | ⟨j, hj, -, hjp⟩
    · exact hother hx
    · have hlen := congrArg List.length (hjp.symm.trans hp)
      simp only [link, List.length_replicate] at hlen
      omega
  have hclimb := hbranch.climb (link k) (Nat.lt_succ_self k) hk
  have hcommits := rename_succeeds (u := u) hbranch.settled (fun _ => ⟨0, fun _ => []⟩) hb hinbox
    hclimb hname
  exact rename_cycle (link_ne 0) hcommits (hbranch.above (Nat.lt_succ_self k))

end Branch

/-- The first of a hundred and one mailboxes goes below the last. -/
theorem mailbox_forest_fails :
    ¬ ∀ (u : CaseMap) (accountId mailboxId : Id) (now quotaBytes : Nat) (calls : List Invocation),
      (∀ c ∈ calls, TreeOp c.op) → ∀ n,
      Forest (performAll u (calls.take n) (newAccount accountId mailboxId now quotaBytes)) := by
  intro hall
  refine Branch.cycle (u := ⟨id, id⟩) [] 0 0 (Nat.le_refl 100) ?_
  generalize hcalls : (List.range 101).map grow ++ _ = calls
  have hops : ∀ c ∈ calls, TreeOp c.op := by
    intro c hc
    rw [← hcalls] at hc
    rcases List.mem_append.mp hc with hc | hc
    · obtain ⟨k, -, rfl⟩ := List.mem_map.mp hc
      exact trivial
    · rw [List.mem_singleton.mp hc]
      exact trivial
  have hforest := hall ⟨id, id⟩ [] "i".toList 0 0 calls hops calls.length
  rwa [List.take_length] at hforest

end Ionosphere.Store
