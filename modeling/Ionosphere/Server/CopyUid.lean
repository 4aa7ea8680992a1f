import Ionosphere.Imap.UidSet
import Ionosphere.Store.Uids
import Mathlib.Data.List.Forall2

/-! COPY and MOVE as the IMAP back end runs them, and the COPYUID response code. The client
takes the two uid-sets apart and pairs what it finds by position. -/
namespace Ionosphere.Server

open Ionosphere.Js Ionosphere.Lib Ionosphere.Imap Ionosphere.Store

variable {rows : TransferRows} {cursor : Nat} {xs : List (Id × Option Nat)} {r : Membership}

attribute [-simp] IsEmpty.exists_iff IsEmpty.forall_iff

/-- `SELECT uid, message_id … AND uid IN (…)`, sorted by uid. -/
def sourceRows (fromId : Id) (uids : List Nat) : Reads (List Membership) := do
  let rows ← queryInChunks 1 uids fun part db =>
    db.memberships.filter fun r => r.mailboxId = fromId && part.contains r.uid
  pure (rows.insertionSort fun a b => a.uid ≤ b.uid)

structure Copied where
  srcUids : List Nat
  dstUids : List Nat

/-- `new Map` keeps the last of equal keys. -/
def uidByMessage (rows : List Membership) (id : Id) : Option Nat :=
  (rows.reverse.find? fun r => r.messageId = id).map (·.uid)

def copied (rows : List Membership) (pairs : List (Id × Nat)) : Copied where
  srcUids := pairs.filterMap fun p => uidByMessage rows p.1
  dstUids := pairs.map (·.2)

/-- `copyOrMove`: the rows of `earlier`, then the attempt that commits in `db`. -/
def copyOrMove (env : Env) (op : TransferOp) (fromId toId : Id) (uids : List Nat) (earlier db : Db) :
    Option (List Membership × Copied × Db) :=
  match (sourceRows fromId uids).on earlier with
  | .error _ => none
  | .ok rows =>
    match (copyOrMoveBatchAttempt (rows.map (·.messageId)) fromId toId op env).on db with
    | .error _ => none
    | .ok plan => (batch plan.stmts db).map fun db' => (rows, copied rows plan.result, db')

def copyUidCode (uidvalidity : Nat) (c : Copied) : Text :=
  join [' '] ["COPYUID".toList, natText uidvalidity, formatUidSet c.srcUids, formatUidSet c.dstUids]

def readCopyUid (code : Text) : Option (List Nat × List Nat) :=
  match code.splitOn ' ' with
  | [_, _, src, dst] => some (expandUidSet src, expandUidSet dst)
  | _ => none

/-- After the batch, uid `uid` of the target is the message itself, or for a COPY a new message
made from it. -/
def Received (env : Env) (op : TransferOp) (toId : Id) (db db' : Db) (id : Id) (uid : Nat) : Prop :=
  match op with
  | .move => ∃ r ∈ db'.memberships, r.mailboxId = toId ∧ r.uid = uid ∧ r.messageId = id
  | .copy => ∃ m ∈ db.messages, m.id = id ∧ ∃ n,
      copyRow (db.account.modseq + 1) (m, env.ulid n) ∈ db'.messages ∧
      ∃ r ∈ db'.memberships, r.mailboxId = toId ∧ r.uid = uid ∧ r.messageId = env.ulid n

def existing (op : TransferOp) (toId : Id) (db : Db) (id : Id) : Option Nat :=
  match op with
  | .copy => none
  | .move => (membershipOf toId id db).map (·.uid)

def remaining (fromId : Id) (ids : List Id) (db : Db) : List Id :=
  ids.filter fun id => (membershipOf fromId id db).isSome

/-- A message with no uid yet gets one above all there are. -/
def Before : Option Nat → Option Nat → Prop
  | some a, some b => a < b
  | none, some _ => False
  | _, none => True

instance : DecidableRel Before
  | some a, some b => inferInstanceAs (Decidable (a < b))
  | none, some _ => inferInstanceAs (Decidable False)
  | some _, none => inferInstanceAs (Decidable True)
  | none, none => inferInstanceAs (Decidable True)

/-- In the order of the source uids, the messages the target has already come first and their
uids there ascend. -/
def InOrder (op : TransferOp) (fromId toId : Id) (ids : List Id) (db : Db) : Prop :=
  ((remaining fromId ids db).map (existing op toId db)).Pairwise Before

instance (op : TransferOp) (fromId toId : Id) (ids : List Id) (db : Db) :
    Decidable (InOrder op fromId toId ids db) := inferInstanceAs (Decidable (List.Pairwise _ _))

def numbered : Nat → List (Id × Option Nat) → List (Id × Nat)
  | _, [] => []
  | cursor, (id, some uid) :: xs => (id, uid) :: numbered cursor xs
  | cursor, (id, none) :: xs => (id, cursor) :: numbered (cursor + 1) xs

theorem numbered_ids (cursor : Nat) (xs : List (Id × Option Nat)) :
    (numbered cursor xs).map (·.1) = xs.map (·.1) := by
  fun_induction numbered cursor xs with
  | case1 => rfl
  | case2 cursor id uid xs ih => rw [List.map_cons, ih, List.map_cons]
  | case3 cursor id xs ih => rw [List.map_cons, ih, List.map_cons]

theorem mem_numbered {p : Id × Nat}
    (hp : p ∈ numbered cursor xs) :
    (p.1, some p.2) ∈ xs ∨ (p.1, none) ∈ xs ∧ cursor ≤ p.2 := by
  fun_induction numbered cursor xs with
  | case1 => exact absurd hp List.not_mem_nil
  | case2 cursor id uid xs ih =>
    rcases List.mem_cons.mp hp with rfl | hp
    · exact .inl List.mem_cons_self
    · rcases ih hp with hold | ⟨hnew, hle⟩
      · exact .inl (List.mem_cons_of_mem _ hold)
      · exact .inr ⟨List.mem_cons_of_mem _ hnew, hle⟩
  | case3 cursor id xs ih =>
    rcases List.mem_cons.mp hp with rfl | hp
    · exact .inr ⟨List.mem_cons_self, Nat.le_refl _⟩
    · rcases ih hp with hold | ⟨hnew, hle⟩
      · exact .inl (List.mem_cons_of_mem _ hold)
      · exact .inr ⟨List.mem_cons_of_mem _ hnew, by omega⟩

theorem exists_numbered (cursor : Nat) {x : Id × Option Nat}
    (hx : x ∈ xs) : ∃ p ∈ numbered cursor xs, p.1 = x.1 ∧ ∀ uid, x.2 = some uid → p.2 = uid := by
  fun_induction numbered cursor xs with
  | case1 => exact absurd hx List.not_mem_nil
  | case2 cursor id uid xs ih =>
    rcases List.mem_cons.mp hx with rfl | hx
    · exact ⟨_, List.mem_cons_self, rfl, fun uid h => Option.some.inj h⟩
    · obtain ⟨p, hp, h⟩ := ih hx
      exact ⟨p, List.mem_cons_of_mem _ hp, h⟩
  | case3 cursor id xs ih =>
    rcases List.mem_cons.mp hx with rfl | hx
    · exact ⟨_, List.mem_cons_self, rfl, fun uid h => nomatch h⟩
    · obtain ⟨p, hp, h⟩ := ih hx
      exact ⟨p, List.mem_cons_of_mem _ hp, h⟩

theorem numbered_ascending (hlow : ∀ x ∈ xs, ∀ uid, x.2 = some uid → uid < cursor) :
    ((numbered cursor xs).map (·.2)).Pairwise (· < ·) ↔ (xs.map (·.2)).Pairwise Before := by
  fun_induction numbered cursor xs with
  | case1 => exact iff_of_true .nil .nil
  | case2 cursor id uid xs ih =>
    have hrest := ih fun x hx => hlow x (List.mem_cons_of_mem _ hx)
    have huid := hlow _ List.mem_cons_self uid rfl
    simp only [List.map_cons, List.pairwise_cons, hrest, List.forall_mem_map]
    refine and_congr_left fun _ => ⟨fun h x hx => ?_, fun h p hp => ?_⟩
    · cases hsome : x.2 with
      | none => exact trivial
      | some old =>
        obtain ⟨p, hp, -, hold⟩ := exists_numbered cursor hx
        exact hold old hsome ▸ h p hp
    · rcases mem_numbered hp with hold | ⟨-, hle⟩
      · exact h _ hold
      · omega
  | case3 cursor id xs ih =>
    have hrest := ih fun x hx uid h => Nat.lt_succ_of_lt (hlow x (List.mem_cons_of_mem _ hx) uid h)
    simp only [List.map_cons, List.pairwise_cons, hrest, List.forall_mem_map]
    refine and_congr_left fun _ => ⟨fun h x hx => ?_, fun h p hp => ?_⟩
    · cases hsome : x.2 with
      | none => exact trivial
      | some old =>
        obtain ⟨p, hp, -, hold⟩ := exists_numbered (cursor + 1) hx
        have hnew : cursor < p.2 := h p hp
        rw [hold old hsome] at hnew
        exact absurd (hlow x (List.mem_cons_of_mem _ hx) old hsome) (by omega)
    · rcases mem_numbered hp with hold | ⟨-, hle⟩
      · exact (h _ hold).elim
      · exact hle

section

variable {db : Db} {env : Env} {fromId toId : Id} {op : TransferOp} {ids : List Id}

theorem find_eq_of_mem {ρ : Type} {p : ρ → Bool} {l l' : List ρ}
    (hmem : ∀ x, p x = true → (x ∈ l ↔ x ∈ l'))
    (hone : ∀ x ∈ l', ∀ y ∈ l', p x = true → p y = true → x = y) : l.find? p = l'.find? p := by
  cases h : l'.find? p with
  | none =>
    rw [List.find?_eq_none] at h ⊢
    exact fun x hx hpx => h x ((hmem x hpx).mp hx) hpx
  | some y =>
    have hpy : p y = true := List.find?_some h
    have hy : y ∈ l' := List.mem_of_find?_eq_some h
    cases hl : l.find? p with
    | none => exact absurd hpy (List.find?_eq_none.mp hl y ((hmem y hpy).mpr hy))
    | some x =>
      have hpx : p x = true := List.find?_some hl
      exact congrArg some (hone x ((hmem x hpx).mp (List.mem_of_find?_eq_some hl)) y hy hpx hpy)

theorem find_membershipsIn (hkeyed : Keyed db) (mailboxId : Id) {id : Id} (hid : id ∈ ids) :
    (readAll 1 ids (membershipsIn mailboxId) db).find? (fun r => r.messageId = id) =
      membershipOf mailboxId id db := by
  have hread : ∀ x, x ∈ readAll 1 ids (membershipsIn mailboxId) db ↔
      x ∈ db.memberships ∧ decide (x.mailboxId = mailboxId) = true ∧ x.messageId ∈ ids :=
    mem_readAll_filter 1 ids (·.memberships) (fun r => decide (r.mailboxId = mailboxId))
      (·.messageId) db
  have hsplit : membershipOf mailboxId id db =
      (db.memberships.filter fun r => r.mailboxId = mailboxId).find? fun r => r.messageId = id := by
    simp only [membershipOf, List.find?_filter, Bool.decide_and, Bool.decide_eq_true]
  rw [hsplit]
  refine find_eq_of_mem (fun x hx => ?_) fun x hx y hy hpx hpy => ?_
  · rw [hread, List.mem_filter, of_decide_eq_true hx]
    exact ⟨fun h => ⟨h.1, h.2.1⟩, fun h => ⟨h.1, h.2, hid⟩⟩
  · rw [List.mem_filter, decide_eq_true_eq] at hx hy
    have heq : (x.mailboxId, x.messageId) = (y.mailboxId, y.messageId) := by
      rw [hx.2, hy.2, of_decide_eq_true hpx, of_decide_eq_true hpy]
    exact List.inj_on_of_nodup_map hkeyed.membership hx.1 hy.1 heq

/-- What the loop reads of the rows, message by message. -/
structure LoopReads (db : Db) (fromId toId : Id) (op : TransferOp) (ids : List Id)
    (rows : TransferRows) : Prop where
  message : ∀ id ∈ ids, (membershipOf fromId id db).isSome →
    ∃ m ∈ db.messages, m.id = id ∧ rows.messages.find? (fun m => m.id = id) = some m
  source : ∀ id ∈ ids, rows.sources.find? (fun r => r.messageId = id) = membershipOf fromId id db
  target : ∀ id ∈ ids,
    (rows.existing.find? fun r => r.messageId = id).map (·.uid) = existing op toId db id

theorem loopReads (hdb : Sound db)
    (hmessages : ∀ m, m ∈ rows.messages ↔ m ∈ db.messages ∧ m.id ∈ ids)
    (hsources : rows.sources = readAll 1 ids (membershipsIn fromId) db)
    (hexisting : rows.existing = if op = .move then readAll 1 ids (membershipsIn toId) db else []) :
    LoopReads db fromId toId op ids rows where
  message id hid hsome := by
    obtain ⟨r, hr⟩ := Option.isSome_iff_exists.mp hsome
    have hin := membershipOf_spec hr
    obtain ⟨m, hm, hmid⟩ := hdb.attached r hin.1
    have hmid : m.id = id := hmid.trans hin.2.2
    cases hfind : rows.messages.find? fun m => m.id = id with
    | none =>
      have hmem : m ∈ rows.messages := (hmessages m).mpr ⟨hm, hmid ▸ hid⟩
      exact absurd (decide_eq_true hmid) (List.find?_eq_none.mp hfind m hmem)
    | some m' =>
      have hm' := (hmessages m').mp (List.mem_of_find?_eq_some hfind)
      have hid' : decide (m'.id = id) = true := by
        simpa using List.find?_some hfind
      exact ⟨m', hm'.1, of_decide_eq_true hid', rfl⟩
  source id hid := by rw [hsources, find_membershipsIn hdb.keyed fromId hid]
  target id hid := by
    rw [hexisting]
    cases op with
    | copy => rfl
    | move => rw [if_pos rfl, find_membershipsIn hdb.keyed toId hid, existing]

theorem transferLoop_pairs (hreads : LoopReads db fromId toId op ids rows)
    (ulid : Nat → Id) (cursor n : Nat) (list : List Id) (hlist : ∀ id ∈ list, id ∈ ids) :
    (transferLoop op rows ulid cursor n list).1.map (·.pair) =
      numbered cursor ((remaining fromId list db).map fun id => (id, existing op toId db id)) := by
  induction list generalizing cursor n with
  | nil => rfl
  | cons id list ih =>
    have hid := hlist id List.mem_cons_self
    have ih := fun cursor n => ih cursor n fun x hx => hlist x (List.mem_cons_of_mem id hx)
    have hsource := hreads.source id hid
    have htarget := hreads.target id hid
    cases hat : membershipOf fromId id db with
    | none =>
      have hskip : remaining fromId (id :: list) db = remaining fromId list db :=
        List.filter_cons_of_neg (by simp [hat])
      rw [hskip, ← ih cursor n, transferLoop, hsource, hat]
      cases rows.messages.find? fun m => m.id = id with
      | none => rfl
      | some m => rfl
    | some source =>
      obtain ⟨m, -, hmid, hm⟩ := hreads.message id hid (by rw [hat]; rfl)
      have htake : remaining fromId (id :: list) db = id :: remaining fromId list db :=
        List.filter_cons_of_pos (by simp [hat])
      rw [htake, List.map_cons, ← htarget, transferLoop, hm, hsource, hat]
      cases hold : rows.existing.find? fun r => r.messageId = id with
      | some e =>
        simp only [List.map_cons, Option.map_some, numbered, ih]
        rw [Transfer.pair, hmid]
      | none =>
        cases op with
        | move =>
          simp only [List.map_cons, Option.map_none, numbered, ih]
          rw [Transfer.pair, hmid]
        | copy =>
          simp only [List.map_cons, Option.map_none, numbered, ih]
          rw [Transfer.pair, hmid]

theorem transferLoop_copied (ulid : Nat → Id) (cursor n : Nat)
    (list : List Id) {m : MessageRow} {uid : Nat} {copyId : Id}
    (h : .copied m uid copyId ∈ (transferLoop op rows ulid cursor n list).1) :
    ∃ k, copyId = ulid k := by
  induction list generalizing cursor n with
  | nil => exact absurd h List.not_mem_nil
  | cons id list ih =>
    rw [transferLoop] at h
    split at h
    · split at h
      · rcases List.mem_cons.mp h with h | h
        · cases h
        · exact ih _ _ h
      · cases op with
        | move =>
          rcases List.mem_cons.mp h with h | h
          · cases h
          · exact ih _ _ h
        | copy =>
          rcases List.mem_cons.mp h with h | h
          · cases h
            exact ⟨n, rfl⟩
          · exact ih _ _ h
    · exact ih _ _ h

theorem mem_across {ρ : Type} {f : Stmt → List ρ → List ρ} {stmts : List Stmt} {t : List ρ} {r : ρ}
    (hkeep : ∀ s ∈ stmts, ∀ t, r ∈ t → r ∈ f s t)
    (h : r ∈ t ∨ ∃ s ∈ stmts, ∀ t, r ∈ f s t) : r ∈ across f stmts t := by
  induction stmts generalizing t with
  | nil =>
    rcases h with h | ⟨s, hs, -⟩
    · exact h
    · exact absurd hs List.not_mem_nil
  | cons s stmts ih =>
    rw [across_cons]
    refine ih (fun s hs => hkeep s (List.mem_cons_of_mem _ hs)) ?_
    rcases h with h | ⟨s', hs', hput⟩
    · exact .inl (hkeep s List.mem_cons_self t h)
    · rcases List.mem_cons.mp hs' with rfl | hs'
      · exact .inl (hput t)
      · exact .inr ⟨s', hs', hput⟩

section

variable {next now : Nat} {transfers : List Transfer}

theorem transferStmts_memberships {t : List Membership}
    (hin : r.mailboxId ≠ fromId ∨ transfers.filterMap (·.leaves) = [])
    (h : r ∈ t ∨ ∃ p ∈ transfers.filterMap (·.enters), r = ⟨toId, p.2.2, p.2.1, now, false⟩) :
    r ∈ across Stmt.onMemberships (transferStmts next now fromId toId rows ids transfers cursor) t := by
  refine mem_across ?_ (h.imp_right ?_)
  · simp only [transferStmts, bumpMessages, multiRow, log, forall_mem_ite, List.forall_mem_append,
      List.forall_mem_cons, List.forall_mem_map]
    rcases hin with hin | hnone
    · simp +contextual [Stmt.onMemberships, hin]
    · rw [hnone]
      simp +contextual [Stmt.onMemberships]
  · rintro ⟨p, hp, rfl⟩
    have hrow : (⟨toId, p.2.2, p.2.1, now, false⟩ : Membership) ∈
        (transfers.filterMap (·.enters)).map fun p => ⟨toId, p.2.2, p.2.1, now, false⟩ :=
      List.mem_map_of_mem hp
    obtain ⟨part, hpart, hin⟩ := (exists_chunk (rowsPerStatement 5) _ _).mpr hrow
    refine ⟨.insertMemberships part, ?_, fun t => List.mem_append_right t hin⟩
    simp only [transferStmts, multiRow, List.mem_append]
    simp [hpart]

theorem transferStmts_messages {t : List MessageRow} {p : MessageRow × Id}
    (hp : p ∈ transfers.filterMap (·.copies)) :
    copyRow next p ∈
      across Stmt.onMessages (transferStmts next now fromId toId rows ids transfers cursor) t := by
  refine mem_across ?_ (.inr ?_)
  · -- the modseq of the batch is the one the row has
    simp only [transferStmts, bumpMessages, multiRow, log, forall_mem_ite, List.forall_mem_append,
      List.forall_mem_cons, List.forall_mem_map]
    simp +contextual [Stmt.onMessages]
    exact fun ids _ t ht => ⟨_, ht, by split_ifs <;> rfl⟩
  · have hrow : copyRow next p ∈ (transfers.filterMap (·.copies)).map (copyRow next) :=
      List.mem_map_of_mem hp
    obtain ⟨part, hpart, hin⟩ := (exists_chunk (rowsPerStatement 14) _ _).mpr hrow
    refine ⟨.insertMessages part, ?_, fun t => List.mem_append_right t hin⟩
    simp only [transferStmts, multiRow, List.mem_append]
    simp [hpart]

end

theorem transfers_received {db' : Db} {transfers : List Transfer}
    (hapart : op = .move → fromId ≠ toId)
    (hfound : ∀ t ∈ transfers, TransferFound db fromId toId op ids t)
    (hcopied : ∀ m uid copyId, .copied m uid copyId ∈ transfers → ∃ k, copyId = env.ulid k)
    (hbatch : batch (transferStmts (db.account.modseq + 1) env.now fromId toId rows ids transfers
      cursor) db = some db') :
    ∀ p ∈ transfers.map (·.pair), Received env op toId db db' p.1 p.2 := by
  intro p hp
  obtain ⟨t, ht, rfl⟩ := List.mem_map.mp hp
  have hin := hfound t ht
  have hleaves : ∀ r : Membership, r.mailboxId = toId → op = .move →
      r.mailboxId ≠ fromId ∨ transfers.filterMap (·.leaves) = [] :=
    fun r hr hop => .inl fun h => hapart hop (h.symm.trans hr)
  cases t with
  | present m source uid =>
    obtain ⟨-, -, -, rfl, e, he, hto, hid, huid⟩ := hin
    refine ⟨e, ?_, hto, huid, hid⟩
    rw [batch_memberships hbatch]
    exact transferStmts_memberships (hleaves e hto rfl) (.inl he)
  | moved m source uid =>
    obtain ⟨-, -, -, rfl⟩ := hin
    refine ⟨⟨toId, uid, m.id, env.now, false⟩, ?_, rfl, rfl, rfl⟩
    rw [batch_memberships hbatch]
    exact transferStmts_memberships (hleaves _ rfl rfl)
      (.inr ⟨(m, m.id, uid), List.mem_filterMap.mpr ⟨_, ht, rfl⟩, rfl⟩)
  | copied m uid copyId =>
    obtain ⟨hm, -, rfl⟩ := hin
    obtain ⟨k, rfl⟩ := hcopied m uid copyId ht
    have hnone : transfers.filterMap (·.leaves) = [] := by
      refine List.filterMap_eq_nil_iff.mpr fun t ht => ?_
      have hop := hfound t ht
      cases t with
      | present m source uid => exact nomatch hop.2.2.2.1
      | moved m source uid => exact nomatch hop.2.2.2
      | copied m uid copyId => rfl
    refine ⟨m, hm, rfl, k, ?_, ⟨toId, uid, env.ulid k, env.now, false⟩, ?_, rfl, rfl, rfl⟩
    · rw [batch_messages hbatch]
      exact transferStmts_messages (List.mem_filterMap.mpr ⟨_, ht, rfl⟩)
    · rw [batch_memberships hbatch]
      exact transferStmts_memberships (.inr hnone)
        (.inr ⟨(m, env.ulid k, uid), List.mem_filterMap.mpr ⟨_, ht, rfl⟩, rfl⟩)

theorem same_mailbox (hkeyed : Keyed db) (cursor : Nat) :
    (ids.filterMap fun id =>
        ((readAll 1 ids (membershipsIn fromId) db).find? fun r => r.messageId = id).map
          fun r => (id, r.uid)) =
      numbered cursor ((remaining fromId ids db).map fun id => (id, existing .move fromId db id)) := by
  have hsub : ∀ list, (∀ id ∈ list, id ∈ ids) → (list.filterMap fun id =>
      ((readAll 1 ids (membershipsIn fromId) db).find? fun r => r.messageId = id).map
        fun r => (id, r.uid)) =
      numbered cursor ((remaining fromId list db).map fun id => (id, existing .move fromId db id)) := by
    intro list hlist
    induction list with
    | nil => rfl
    | cons id list ih =>
      have ih := ih fun x hx => hlist x (List.mem_cons_of_mem id hx)
      have hread := find_membershipsIn hkeyed fromId (hlist id List.mem_cons_self)
      cases hat : membershipOf fromId id db with
      | none =>
        have hskip : remaining fromId (id :: list) db = remaining fromId list db :=
          List.filter_cons_of_neg (by simp [hat])
        rw [hskip, ← ih, List.filterMap_cons, hread, hat]
        rfl
      | some source =>
        have htake : remaining fromId (id :: list) db = id :: remaining fromId list db :=
          List.filter_cons_of_pos (by simp [hat])
        have hold : existing .move fromId db id = some source.uid := by rw [existing, hat]; rfl
        rw [htake, List.map_cons, hold, numbered, ← ih, List.filterMap_cons, hread, hat]
        rfl
  exact hsub ids fun id hid => hid

theorem copyOrMove_spec (hdb : Sound db) {plan : Plan (List (Id × Nat))}
    (h : (copyOrMoveBatchAttempt ids fromId toId op env).on db = .ok plan) {db' : Db}
    (hbatch : batch plan.stmts db = some db') :
    ∃ target, activeMailbox toId db = some target ∧
      plan.result = numbered target.uidnext
        ((remaining fromId ids db).map fun id => (id, existing op toId db id)) ∧
      ∀ p ∈ plan.result, Received env op toId db db' p.1 p.2 := by
  rw [copyOrMoveBatchAttempt, on_mustGetAccount] at h
  obtain ⟨-, h⟩ := h
  obtain ⟨target, htarget, h₁⟩ := Reads.of_select h rfl
  simp only [on_chunks_bind] at h₁
  split at h₁
  · rename_i hsame
    obtain ⟨rfl, rfl⟩ := hsame
    cases h₁
    cases hbatch
    refine ⟨target, htarget, same_mailbox hdb.keyed target.uidnext, fun p hp => ?_⟩
    obtain ⟨id, -, hid⟩ := List.mem_filterMap.mp hp
    obtain ⟨r, hr, rfl⟩ := Option.map_eq_some_iff.mp hid
    obtain ⟨part, hread⟩ := mem_readAll (List.mem_of_find?_eq_some hr)
    rw [membershipsIn, List.mem_filter, Bool.and_eq_true, decide_eq_true_eq] at hread
    exact ⟨r, hread.1, hread.2.1, rfl, by simpa using List.find?_some hr⟩
  · rename_i hapart
    simp only [on_readFor, on_chunks_bind] at h₁
    generalize hrows : (⟨_, _, _, _, _, _⟩ : TransferRows) = rows at h₁
    have hreads : TransferReads db fromId toId op ids rows := by
      subst hrows
      exact transferReads fromId toId op ids _ _
    have hloop : LoopReads db fromId toId op ids rows := by
      subst hrows
      exact loopReads hdb hreads.messages rfl rfl
    have hfound := transferLoop_found hreads env.ulid target.uidnext 0 ids
    have hmove : op = .move → fromId ≠ toId := fun hop hsame => hapart ⟨hop, hsame⟩
    have hpairs := transferLoop_pairs hloop env.ulid target.uidnext 0 ids fun id hid => hid
    have hcopied : ∀ m uid copyId,
        .copied m uid copyId ∈ (transferLoop op rows env.ulid target.uidnext 0 ids).1 →
        ∃ k, copyId = env.ulid k :=
      fun m uid copyId h => transferLoop_copied env.ulid target.uidnext 0 ids h
    refine ⟨target, htarget, ?_⟩
    generalize transferLoop op rows env.ulid target.uidnext 0 ids = r at *
    split at h₁
    · rename_i hnone
      cases h₁
      cases hbatch
      refine ⟨hpairs, fun p hp => ?_⟩
      obtain ⟨t, ht, rfl⟩ := List.mem_map.mp hp
      have hleaves := List.filterMap_eq_nil_iff.mp hnone.1 t ht
      have hcopies := List.filterMap_eq_nil_iff.mp hnone.2 t ht
      have hin := hfound t ht
      cases t with
      | present m source uid =>
        obtain ⟨-, -, -, rfl, e, he, hto, hid, huid⟩ := hin
        exact ⟨e, he, hto, huid, hid⟩
      | moved m source uid => cases hleaves
      | copied m uid copyId => cases hcopies
    · split at h₁
      · rw [on_assertQuota] at h₁
        obtain ⟨-, h₁⟩ := h₁
        obtain rfl := Except.ok.inj h₁
        exact ⟨hpairs, transfers_received hmove hfound hcopied hbatch⟩
      · obtain rfl := Except.ok.inj h₁
        exact ⟨hpairs, transfers_received hmove hfound hcopied hbatch⟩

end

section

variable {db₀ db db' : Db} {env : Env} {fromId toId : Id} {op : TransferOp} {uids : List Nat}
  {rows : List Membership}

section

variable (h : (sourceRows fromId uids).on db₀ = .ok rows)

include h

theorem sourceRows_on :
    rows = (readAll 1 uids (fun part db =>
      db.memberships.filter fun r => r.mailboxId = fromId && part.contains r.uid) db₀).insertionSort
        fun a b => a.uid ≤ b.uid := by
  rw [sourceRows, on_chunks_bind] at h
  cases h
  rfl

theorem sourceRows_mem
    (hr : r ∈ rows) : r ∈ db₀.memberships ∧ r.mailboxId = fromId := by
  rw [sourceRows_on h, List.mem_insertionSort] at hr
  obtain ⟨part, hr⟩ := mem_readAll hr
  rw [List.mem_filter, Bool.and_eq_true, decide_eq_true_eq] at hr
  exact ⟨hr.1, hr.2.1⟩

theorem sourceRows_ascending (hkeyed : Keyed db₀) (huids : uids.Nodup) :
    (rows.map (·.uid)).Pairwise (· < ·) := by
  have hread : ((readAll 1 uids (fun part db =>
      db.memberships.filter fun r => r.mailboxId = fromId && part.contains r.uid) db₀).map
        (·.uid)).Nodup := by
    have hflat := Table.flatten_chunk (max 1 (maxParamsPerStatement - 1)) uids
    rw [← hflat, List.nodup_flatten] at huids
    rw [readAll, List.map_flatMap, List.nodup_flatMap]
    refine ⟨fun part _ => ?_, huids.2.imp fun {a b} hab => ?_⟩
    · refine List.Nodup.map_on ?_ (hkeyed.uid.of_map.filter _)
      intro x hx y hy hxy
      rw [List.mem_filter, Bool.and_eq_true, decide_eq_true_eq] at hx hy
      have heq : (x.mailboxId, x.uid) = (y.mailboxId, y.uid) := by rw [hx.2.1, hy.2.1, hxy]
      exact List.inj_on_of_nodup_map hkeyed.uid hx.1 hy.1 heq
    · intro uid ha hb
      obtain ⟨x, hx, rfl⟩ := List.mem_map.mp ha
      obtain ⟨y, hy, hxy⟩ := List.mem_map.mp hb
      rw [List.mem_filter, Bool.and_eq_true, List.contains_iff_mem] at hx hy
      have hyb := hy.2.2
      rw [hxy] at hyb
      exact hab hx.2.2 hyb
  rw [sourceRows_on h]
  generalize readAll 1 uids _ db₀ = read at hread ⊢
  have hle : (read.insertionSort fun a b => a.uid ≤ b.uid).Pairwise fun a b => a.uid ≤ b.uid :=
    List.pairwise_insertionSort (fun a b : Membership => a.uid ≤ b.uid) read
  have hne : ((read.insertionSort fun a b => a.uid ≤ b.uid).map (·.uid)).Nodup :=
    ((List.perm_insertionSort _ read).map _).nodup_iff.mpr hread
  have hle : ((read.insertionSort fun a b => a.uid ≤ b.uid).map (·.uid)).Pairwise (· ≤ ·) :=
    List.pairwise_map.mpr hle
  exact (hle.and hne).imp fun h => Nat.lt_of_le_of_ne h.1 h.2

theorem uidByMessage_of_mem (hkeyed : Keyed db₀) (hr : r ∈ rows) :
    uidByMessage rows r.messageId = some r.uid := by
  rw [uidByMessage]
  cases hfind : rows.reverse.find? fun x => x.messageId = r.messageId with
  | none =>
    rw [List.find?_eq_none] at hfind
    exact absurd (decide_eq_true rfl) (hfind r (List.mem_reverse.mpr hr))
  | some x =>
    have hid : x.messageId = r.messageId := by simpa using List.find?_some hfind
    have hx := sourceRows_mem h (List.mem_reverse.mp (List.mem_of_find?_eq_some hfind))
    have hr := sourceRows_mem h hr
    have heq : (x.mailboxId, x.messageId) = (r.mailboxId, r.messageId) := by rw [hx.2, hr.2, hid]
    rw [List.inj_on_of_nodup_map hkeyed.membership hx.1 hr.1 heq]
    rfl

end

/-- Position by position, the first set names a message and the second what it received. -/
def Corresponds (env : Env) (op : TransferOp) (toId : Id) (rows : List Membership) (db db' : Db)
    (code : Text) : Prop :=
  ∃ sets, readCopyUid code = some sets ∧ List.Forall₂
    (fun src dst => ∃ r ∈ rows, r.uid = src ∧ Received env op toId db db' r.messageId dst)
    sets.1 sets.2

theorem readCopyUid_copyUidCode (uidvalidity : Nat) (c : Copied) :
    readCopyUid (copyUidCode uidvalidity c) =
      some (expandUidSet (formatUidSet c.srcUids), expandUidSet (formatUidSet c.dstUids)) := by
  have hdigits : ∀ n, ' ' ∉ natText n := notMem_natText (by decide)
  have hset : ∀ uids, ' ' ∉ formatUidSet uids := by
    intro uids hmem
    rcases mem_join hmem with hcomma | ⟨part, hpart, hin⟩
    · exact absurd hcomma (by decide)
    · obtain ⟨r, -, rfl⟩ := List.mem_map.mp hpart
      rw [rangeText] at hin
      split_ifs at hin
      · exact hdigits _ hin
      · simp [hdigits] at hin
  have hsplit : (copyUidCode uidvalidity c).splitOn ' ' =
      ["COPYUID".toList, natText uidvalidity, formatUidSet c.srcUids, formatUidSet c.dstUids] := by
    refine List.splitOn_intercalate ' ' ?_ (List.cons_ne_nil _ _)
    simp only [List.forall_mem_cons]
    exact ⟨by decide, hdigits _, hset _, hset _, fun _ h => absurd h List.not_mem_nil⟩
  rw [readCopyUid, hsplit]

theorem forall₂_mem {α β : Type} {R : α → β → Prop} {l : List α} {l' : List β}
    (h : List.Forall₂ R l l') : List.Forall₂ (fun a b => a ∈ l ∧ b ∈ l' ∧ R a b) l l' := by
  have hright := List.forall₂_and_left (p := fun b => b ∈ l') _ _ |>.mpr ⟨fun _ hb => hb, h.flip⟩
  exact List.forall₂_and_left _ _ |>.mpr ⟨fun _ ha => ha, hright.flip⟩

theorem received_unique (hkeyed : Keyed db') {id : Id} {uid uid' : Nat}
    (h : Received env .move toId db db' id uid) (h' : Received env .move toId db db' id uid') :
    uid = uid' := by
  obtain ⟨r, hr, hto, rfl, hid⟩ := h
  obtain ⟨r', hr', hto', rfl, hid'⟩ := h'
  have heq : (r.mailboxId, r.messageId) = (r'.mailboxId, r'.messageId) := by
    rw [hto, hto', hid, hid']
  rw [List.inj_on_of_nodup_map hkeyed.membership hr hr' heq]

theorem corresponds_iff (hdb₀ : Sound db₀) (hdb : Sound db) (huids : uids.Nodup)
    (hrows : (sourceRows fromId uids).on db₀ = .ok rows) {plan : Plan (List (Id × Nat))}
    (hplan : (copyOrMoveBatchAttempt (rows.map (·.messageId)) fromId toId op env).on db = .ok plan)
    (hbatch : batch plan.stmts db = some db') (uidvalidity : Nat) :
    Corresponds env op toId rows db db' (copyUidCode uidvalidity (copied rows plan.result)) ↔
      InOrder op fromId toId (rows.map (·.messageId)) db := by
  obtain ⟨target, htarget, hresult, hreceived⟩ := copyOrMove_spec hdb hplan hbatch
  have hremaining : remaining fromId (rows.map (·.messageId)) db =
      (rows.filter fun r => (membershipOf fromId r.messageId db).isSome).map (·.messageId) :=
    List.filter_map
  have hlow : ∀ x ∈ (remaining fromId (rows.map (·.messageId)) db).map
      (fun id => (id, existing op toId db id)), ∀ uid, x.2 = some uid → uid < target.uidnext := by
    intro x hx uid huid
    obtain ⟨id, -, rfl⟩ := List.mem_map.mp hx
    cases op with
    | copy => cases huid
    | move =>
      obtain ⟨r, hr, rfl⟩ := Option.map_eq_some_iff.mp huid
      have hr := membershipOf_spec hr
      obtain ⟨b, hb, hid, hlt⟩ := hdb.membership r hr.1
      have hactive := activeMailbox_spec htarget
      rwa [hdb.mailbox_eq hb hactive.1 (hid.trans (hr.2.1.trans hactive.2.1.symm))] at hlt
  have hasc : (plan.result.map (·.2)).Pairwise (· < ·) ↔
      InOrder op fromId toId (rows.map (·.messageId)) db := by
    rw [hresult, numbered_ascending hlow, List.map_map]
    rfl
  rw [← hasc]
  generalize hkept : (rows.filter fun r => (membershipOf fromId r.messageId db).isSome) = kept
    at hremaining
  have hmem : ∀ r ∈ kept, r ∈ rows := fun r hr => List.mem_of_mem_filter (hkept ▸ hr)
  have hids : kept.map (·.messageId) = plan.result.map (·.1) := by
    rw [hresult, numbered_ids, List.map_map, hremaining]
    exact (List.map_id _).symm
  have hpair : List.Forall₂ (fun r p => r.messageId = p.1) kept plan.result :=
    List.forall₂_map_right_iff.mp (List.forall₂_map_left_iff.mp
      (List.forall₂_eq_eq_eq.symm ▸ hids))
  have hsrc : (copied rows plan.result).srcUids = kept.map (·.uid) := by
    have hlookup : ∀ r ∈ kept, uidByMessage rows r.messageId = some r.uid :=
      fun r hr => uidByMessage_of_mem hrows hdb₀.keyed (hmem r hr)
    have hsplit : (copied rows plan.result).srcUids =
        (plan.result.map (·.1)).filterMap (uidByMessage rows) := by
      rw [List.filterMap_map]
      rfl
    rw [hsplit, ← hids, List.filterMap_map]
    exact (List.filterMap_congr hlookup).trans (congrFun List.filterMap_eq_map kept)
  have hrowsAsc := sourceRows_ascending hrows hdb₀.keyed huids
  have hsrcAsc : (kept.map (·.uid)).Pairwise (· < ·) :=
    hrowsAsc.sublist (hkept ▸ List.filter_sublist.map _)
  have hexpand : ∀ xs : List Nat, xs.Pairwise (· < ·) → expandUidSet (formatUidSet xs) = xs := by
    intro xs hxs
    rw [expandUidSet_formatUidSet, List.Nodup.dedup (hxs.imp Nat.ne_of_lt), sortUids_of_ascending hxs]
  rw [Corresponds, readCopyUid_copyUidCode, hsrc, hexpand _ hsrcAsc]
  constructor
  · rintro ⟨_, hsets, h⟩
    cases hsets
    cases op with
    | copy =>
      refine hasc.mpr (List.pairwise_map.mpr (List.pairwise_of_forall fun _ _ => trivial))
    | move =>
      -- the uids of the rows tell the messages apart, so the second set is the list itself
      have hrow : ∀ r ∈ rows, ∀ r' ∈ rows, r'.uid = r.uid → r' = r := fun r hr r' hr' huid =>
        List.inj_on_of_nodup_map (hrowsAsc.imp Nat.ne_of_lt) hr' hr huid
      have hkeptDst := (forall₂_mem (List.forall₂_map_left_iff.mp h)).imp
        fun r dst ⟨hr, _, r', hr', huid, hgot⟩ => hrow r (hmem r hr) r' hr' huid ▸ hgot
      have hresultDst : List.Forall₂ (fun p dst => Received env .move toId db db' p.1 dst)
          plan.result (expandUidSet (formatUidSet (plan.result.map (·.2)))) := by
        refine List.forall₂_map_left_iff.mp ?_
        rw [← hids]
        exact List.forall₂_map_left_iff.mpr hkeptDst
      have heq := List.forall₂_map_left_iff.mpr ((forall₂_mem hresultDst).imp
        fun p dst ⟨hp, _, hgot⟩ =>
          received_unique (batch_keyed hdb.keyed hbatch) (hreceived p hp) hgot)
      rw [List.forall₂_eq_eq_eq] at heq
      rw [heq, expandUidSet_formatUidSet]
      exact sortUids_ascending (List.nodup_dedup _)
  · intro hdst
    refine ⟨_, rfl, ?_⟩
    rw [copied, hexpand _ hdst]
    refine List.forall₂_map_left_iff.mpr (List.forall₂_map_right_iff.mpr ?_)
    refine (forall₂_mem hpair).imp fun r p h => ⟨r, hmem r h.1, rfl, ?_⟩
    rw [h.2.2]
    exact hreceived p h.2.1

end

section

variable {u : CaseMap}

theorem copyOrMove_corresponds {env : Env} {op : TransferOp} {fromId toId : Id} {uids : List Nat}
    {earlier db db' : Db} {rows : List Membership} {c : Copied} (hearlier : Sound earlier)
    (hdb : Sound db) (huids : uids.Nodup)
    (h : copyOrMove env op fromId toId uids earlier db = some (rows, c, db')) (uidvalidity : Nat) :
    Corresponds env op toId rows db db' (copyUidCode uidvalidity c) ↔
      InOrder op fromId toId (rows.map (·.messageId)) db := by
  rw [copyOrMove] at h
  cases hrows : (sourceRows fromId uids).on earlier with
  | error err => simp [hrows] at h
  | ok rows' =>
    simp only [hrows] at h
    cases hplan : (copyOrMoveBatchAttempt (rows'.map (·.messageId)) fromId toId op env).on db with
    | error err => simp [hplan] at h
    | ok plan =>
      simp only [hplan, Option.map_eq_some_iff] at h
      obtain ⟨db'', hbatch, h⟩ := h
      cases h
      exact corresponds_iff hearlier hdb huids hrows hplan hbatch uidvalidity

/-- Any COPY or MOVE of a run, with any operations between the reading of the rows and the batch:
the response code pairs the uids rightly exactly if the order of the new ones is that of the old. -/
theorem copyuid_correspondence (u : CaseMap) (accountId mailboxId : Id) (now quotaBytes : Nat)
    (before between : List Invocation) (env : Env) (op : TransferOp) (fromId toId : Id)
    (uids : List Nat) (huids : uids.Nodup) (uidvalidity : Nat) :
    let earlier := performAll u before (newAccount accountId mailboxId now quotaBytes)
    let db := performAll u between earlier
    ∀ rows c db', copyOrMove env op fromId toId uids earlier db = some (rows, c, db') →
      (Corresponds env op toId rows db db' (copyUidCode uidvalidity c) ↔
        InOrder op fromId toId (rows.map (·.messageId)) db) := by
  intro earlier db rows c db' h
  have hearlier := (performAll_continues (u := u)
    (sound_newAccount accountId mailboxId now quotaBytes) before).1
  exact copyOrMove_corresponds hearlier (performAll_continues hearlier between).1 huids h uidvalidity

end

/-- A second mailbox `b`, a message in both, and one in the INBOX `i` before and behind it. -/
def sharedMessage : List Invocation :=
  [⟨.createMailbox [] "b".toList none, fun _ => ⟨0, fun _ => "b".toList⟩⟩,
    ⟨.appendMessages
      [{ mailboxIds := ["i".toList], blobId := "x".toList, sizeBytes := 1, receivedAt := 1 },
        { mailboxIds := ["b".toList, "i".toList], blobId := "y".toList, sizeBytes := 1
          receivedAt := 2 },
        { mailboxIds := ["i".toList], blobId := "z".toList, sizeBytes := 1, receivedAt := 3 }],
      fun _ => ⟨0, fun n => "m".toList ++ natText n⟩⟩]

def shared : Db :=
  performAll ⟨id, id⟩ sharedMessage (newAccount "a".toList "i".toList 1000 0)

/-- Messages of the INBOX are moved to `b`. -/
def moveShared (uids : List Nat) : Option (List Membership × Copied × Db) :=
  copyOrMove ⟨0, fun _ => []⟩ .move "i".toList "b".toList uids shared shared

/-- The message that is in `b` already keeps uid 1, the one behind it gets uid 2. -/
theorem copyuid_correspondence_present :
    ∃ r, moveShared [2, 3] = some r ∧ r.2.1.srcUids = [2, 3] ∧ r.2.1.dstUids = [1, 2] ∧
      Corresponds ⟨0, fun _ => []⟩ .move "b".toList r.1 shared r.2.2 (copyUidCode 7 r.2.1) := by
  have hsets : (moveShared [2, 3]).map (fun r => (r.2.1.srcUids, r.2.1.dstUids)) =
      some ([2, 3], [1, 2]) := by
    decide +kernel
  obtain ⟨r, h, huids⟩ := Option.map_eq_some_iff.mp hsets
  obtain ⟨hsrc, hdst⟩ := Prod.mk.inj huids
  refine ⟨r, h, hsrc, hdst, ?_⟩
  have hrows : r.1 = ((moveShared [2, 3]).map (·.1)).getD [] := by rw [h]; rfl
  refine (copyuid_correspondence ⟨id, id⟩ "a".toList "i".toList 1000 0 sharedMessage []
    ⟨0, fun _ => []⟩ .move "i".toList "b".toList [2, 3] (by decide) 7 _ _ _ h).mpr ?_
  rw [hrows]
  decide +kernel

/-- The first message gets uid 2 and the second is uid 1 already; the sets say the opposite. -/
theorem copyuid_correspondence_fails :
    ¬ ∀ (u : CaseMap) (accountId mailboxId : Id) (now quotaBytes : Nat)
      (before between : List Invocation) (env : Env) (op : TransferOp) (fromId toId : Id)
      (uids : List Nat), uids.Nodup → ∀ uidvalidity : Nat,
      let earlier := performAll u before (newAccount accountId mailboxId now quotaBytes)
      let db := performAll u between earlier
      ∀ rows c db', copyOrMove env op fromId toId uids earlier db = some (rows, c, db') →
        Corresponds env op toId rows db db' (copyUidCode uidvalidity c) := by
  intro hall
  cases h : moveShared [1, 2] with
  | none => exact absurd h (by decide +kernel)
  | some r =>
    have hsound : Sound shared :=
      (performAll_continues (sound_newAccount "a".toList "i".toList 1000 0) sharedMessage).1
    have hcorresponds := hall ⟨id, id⟩ "a".toList "i".toList 1000 0 sharedMessage []
      ⟨0, fun _ => []⟩ .move "i".toList "b".toList [1, 2] (by decide) 7 _ _ _ h
    have horder := (copyOrMove_corresponds hsound hsound (by decide) h 7).mp hcorresponds
    have hrows : r.1 = ((moveShared [1, 2]).map (·.1)).getD [] := by rw [h]; rfl
    rw [hrows] at horder
    exact absurd horder (by decide +kernel)

end Ionosphere.Server
