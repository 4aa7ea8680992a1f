import Ionosphere.Store.Plans

/-! Every statement of a batch carries the batch's own modseq and time. What a committed
operation can have done to the numbers of a database follows from that alone. -/
namespace Ionosphere.Store

open Ionosphere.Js Ionosphere.Lib

/-- The numbers a statement writes are those of its batch. -/
def Stmt.Stamped (next now : Nat) : Stmt → Prop
  | claim modseq => modseq = next
  | insertMailbox row => row.highestmodseq = next ∧ row.uidnext = 1 ∧ row.expungedFloor = 0
  | updateMailbox _ set => set.highestmodseq = next
  | insertMessages rows => ∀ m ∈ rows, m.modseq = next
  | setModseq modseq _ => modseq = next
  | insertExpunged rows => ∀ x ∈ rows, x.modseq = next ∧ x.createdAt = now
  | changeLog row => row.modseq = next ∧ row.createdAt = now
  | updateAccount set => set.modseq = next
  | _ => True

theorem mem_chunk {α : Type} {size : Nat} {xs part : List α} {x : α}
    (hpart : part ∈ Table.chunk size xs) (hx : x ∈ part) : x ∈ xs := by
  rw [← Table.flatten_chunk size xs]
  exact List.mem_flatten.mpr ⟨part, hpart, hx⟩

theorem forall_chunk {α : Type} {size : Nat} {xs : List α} {Q : α → Prop} (h : ∀ x ∈ xs, Q x) :
    ∀ part ∈ Table.chunk size xs, ∀ x ∈ part, Q x :=
  fun _ hpart x hx => h x (mem_chunk hpart hx)

theorem forall_mem_ite {c : Prop} [Decidable c] {as bs : List Stmt} {P : Stmt → Prop} :
    (∀ s ∈ (if c then as else bs), P s) ↔ (c → ∀ s ∈ as, P s) ∧ (¬ c → ∀ s ∈ bs, P s) := by
  by_cases hc : c <;> simp [hc]

section

variable {u : CaseMap} {db : Db} {env : Env} {op : Op} {stmts : List Stmt}

theorem Planned.stamped (h : Planned u db env op stmts) :
    ∀ s ∈ stmts, s.Stamped (db.account.modseq + 1) env.now := by
  cases h with
  | nothing => simp
  | create =>
    simp only [createMailboxStmts, List.forall_mem_cons, log]
    simp [Stmt.Stamped]
  | change op b set kind hb hset =>
    simp only [mailboxStmts, List.forall_mem_cons, log]
    simp [Stmt.Stamped, hset]
  | reapEmpty => simp [Stmt.Stamped]
  | reap =>
    simp only [reapMessages, deleteMessageRows, bumpMessages, List.forall_mem_append,
      List.forall_mem_cons, List.forall_mem_map, List.forall_mem_flatMap, log]
    simp [Stmt.Stamped]
  | append =>
    simp only [appendStmts, Appended.stmts, multiRow, List.forall_mem_append, List.forall_mem_cons,
      List.forall_mem_map, List.forall_mem_flatMap, log]
    simp [Stmt.Stamped, Appended.row]
  | setKeywords =>
    simp only [setKeywordsStmts, KeywordChange.removeStmts, keywordStates, multiRow,
      List.forall_mem_append, List.forall_mem_cons, List.forall_mem_map, List.forall_mem_flatMap, log]
    simp [Stmt.Stamped]
  | setKeywordsBatch =>
    simp only [setKeywordsBatchStmts, KeywordChange.removeStmts, keywordStates, bumpMessages,
      multiRow, List.forall_mem_append, List.forall_mem_cons, List.forall_mem_map,
      List.forall_mem_flatMap, log]
    simp [Stmt.Stamped]
  | setDeleted =>
    simp only [setDeletedStmts, bumpMessages, List.forall_mem_append, List.forall_mem_cons,
      List.forall_mem_map, log]
    simp [Stmt.Stamped]
  | expunge =>
    simp only [expungeStmts, deleteMessageRows, bumpMessages, multiRow, List.forall_mem_append,
      List.forall_mem_cons, List.forall_mem_map, List.forall_mem_flatMap, log]
    simp only [Stmt.Stamped, implies_true, List.not_mem_nil, IsEmpty.forall_iff, and_self, and_true,
      true_and]
    exact forall_chunk (List.forall_mem_map.mpr fun _ _ => ⟨rfl, rfl⟩)
  | remove =>
    simp only [removeMembershipStmts, deleteMessageRow, List.forall_mem_append,
      List.forall_mem_cons, forall_mem_ite, log]
    simp [Stmt.Stamped, leaveSet]
  | transfer =>
    simp only [transferStmts, bumpMessages, multiRow, List.forall_mem_append,
      List.forall_mem_cons, List.forall_mem_map, forall_mem_ite, log]
    simp only [Stmt.Stamped, implies_true, List.not_mem_nil, IsEmpty.forall_iff, and_self, and_true,
      true_and]
    exact ⟨forall_chunk (List.forall_mem_map.mpr fun _ _ => rfl),
      forall_chunk (List.forall_mem_map.mpr fun _ _ => ⟨rfl, rfl⟩)⟩
  | destroy =>
    simp only [destroyMessageStmts, deleteMessageRow, List.forall_mem_append,
      List.forall_mem_cons, List.forall_mem_flatMap, log]
    simp [Stmt.Stamped, leaveSet]
  | move =>
    simp only [moveMessageStmts, List.forall_mem_cons, log]
    simp [Stmt.Stamped, leaveSet, enterSet]
  | copy =>
    simp only [copyMessageStmts, List.forall_mem_cons, log]
    simp [Stmt.Stamped, enterSet]

end

end Ionosphere.Store
